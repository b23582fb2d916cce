import WireCodec.Proofs.Reading.Slots

/-!
# Where a message stops that is being read

A routine that finds in its slots what a field of its kind takes out of them either takes it and
leaves the slots empty, or stops where they hold such things again (`Read.endsField`). So fields
that are read one after the other find what they need, and a message that stops leaves a trail from
its level downwards (`Read.endsMessage_root`). What a container holds was put there by the items of
the same field, so it is of the kinds that the field is for.
-/

namespace WireCodec

namespace Read

open Step

variable {α β : Type} {ctx : ReadContext} {nested : Schema → Read Message}

/-! ## Items -/

/-- From a reader that waits for an item of a kind, a routine ends with a value of which `P` holds
and with nothing set aside, or stops where the reader waits for the same item. -/
def Awaits (kind : ItemKind) (P : α → Prop) (p : Read α) : Prop :=
  ∀ r, r.Waits kind → Ends (fun x r' => P x ∧ r'.outer = r.outer ∧ r'.Rests)
    (fun r' => r'.outer = r.outer ∧ r'.Waits kind) (p r)

namespace Awaits

variable {kind : ItemKind} {P : α → Prop} {R : β → Prop} {p : Read α}

/-- A routine that sets nothing aside, for a kind of which nothing is ever set aside. -/
theorem of_calm (hkind : ∀ parked, kind.Parks parked → parked = none) (hp : Calm p) :
    Awaits kind (fun _ => True) p := by
  intro r hr
  have hrests : r.Rests := hr.leads.rests (hkind _ hr.parked)
  refine (hp r).mono (fun x r' h => ⟨trivial, congrArg Prod.fst h, hrests.of_settled h⟩)
    fun r' h => ⟨congrArg Prod.fst h, (hrests.of_settled h).waits kind⟩

theorem bind {q : α → Read β} (hp : Awaits kind P p) (hq : ∀ x, P x → Gives R (q x)) :
    Awaits kind R (p >>= q) := by
  refine fun r hr => (hp r hr).bind (fun x r' h => ?_) fun _ h => h
  refine (hq x h.1 r').mono (fun y r'' hy => ⟨hy.1, ?_⟩) fun _ h => h.elim
  rw [hy.2]
  exact h.2

theorem map {g : α → β} (hp : Awaits kind P p) (hR : ∀ x, P x → R (g x)) :
    Awaits kind R (g <$> p) := by
  rw [map_eq_pure_bind]
  exact hp.bind fun x hx => .pure (hR x hx)

end Awaits

theorem awaits_grid : Awaits .grid (fun _ => True) grid := by
  have hcounter (u : Uuid) {r : Reader} (hr : r.Rests) :
      Ends (fun _ r' => True ∧ r'.outer = r.outer ∧ r'.Rests)
        (fun r' => r'.outer = r.outer ∧ r'.Waits .grid) (counter u r) := by
    rw [counter_apply]
    split
    · exact ⟨trivial, rfl, hr.parked, hr.cleared⟩
    · exact ⟨rfl, .node u, .of_cleared hr.cleared⟩
  intro r hr
  obtain ⟨hparked, hleads⟩ := hr
  rw [grid_apply]
  rcases hp : r.stack.current.progress.parked with _ | ⟨u⟩ | ⟨s⟩
  · have hrests := hleads.rests hp
    rw [Reader.unpark_eq_self hp]
    refine (calm_nullableUuid r).bind (fun u r' h => ?_) fun r' h =>
      ⟨congrArg Prod.fst h, (hrests.of_settled h).waits .grid⟩
    have houter : r'.outer = r.outer := congrArg Prod.fst h
    cases u with
    | none => exact ⟨trivial, houter, hrests.of_settled h⟩
    | some u => rw [← houter]; exact hcounter u (hrests.of_settled h)
  · have hnone : r.stack.current.progress.message? = none := by rw [ReadProgress.message?, hp]
    have hrests : r.unpark.Rests := by
      rw [Reader.Leads, hnone, Trail.none_iff] at hleads
      exact ⟨rfl, hleads⟩
    exact hcounter u hrests
  · rw [hp] at hparked
    cases hparked

/-- What reading a message one level down comes to. Where it stops, it is set aside, and leads to
the level below. -/
def Descends (nested : Schema → Read Message) : Prop :=
  ∀ (s : Schema) (r : Reader), r.stack.current.progress.parked = none →
    Trail ReadFrame.Holds (some s) r.stack.below →
    Ends (fun m r' => m.type = s.type ∧ r'.outer = r.outer ∧ r'.Rests)
      (fun r' => r'.outer = r.outer ∧ r'.stack.current.progress.parked = some (.message s) ∧
        r'.Leads) (nested s r)

theorem descends_fail {e : Error} (h : e.Foreign) : Descends fun _ => fail e := fun _ _ _ _ => h

/-- A message or none, of the type that is wanted if one is. -/
def OfType (wanted : Option UInt8) (m : Option Message) : Prop :=
  ∀ t, wanted = some t → ∀ msg, m = some msg → msg.type = t

theorem ofType_none (wanted : Option UInt8) : OfType wanted none := by
  intro t _ msg hmsg
  cases hmsg

theorem ends_nested (hn : Descends nested) {wanted : Option UInt8} {s : Schema}
    (hs : ∀ t, wanted = some t → s.type = t) {r : Reader}
    (hparked : r.stack.current.progress.parked = none)
    (htrail : Trail ReadFrame.Holds (some s) r.stack.below) :
    Ends (fun m r' => OfType wanted m ∧ r'.outer = r.outer ∧ r'.Rests)
      (fun r' => r'.outer = r.outer ∧ r'.Waits (.message wanted)) ((some <$> nested s) r) := by
  have hsome (m : Message) (hm : m.type = s.type) : OfType wanted (some m) := by
    rintro t ht _ ⟨⟩
    exact hm.trans (hs t ht)
  refine ((hn s r hparked htrail).map some fun m r' h => ⟨hsome m h.1, h.2⟩).mono
    (fun _ _ h => h) fun r' h => ⟨h.1, ?_, h.2.2⟩
  rw [h.2.1]
  exact .message hs

/-- The type of a message that is wanted by its type byte has this type byte. -/
theorem gives_schemaFor (wanted : Option UInt8) (type : UInt8) :
    Gives (fun s => ∀ t, wanted = some t → s.type = t) (schemaFor ctx wanted type) := by
  cases wanted with
  | some t =>
    by_cases h : t = type
    · rw [schemaFor, if_pos h]
      refine .pure ?_
      rintro _ ⟨⟩
      rfl
    · rw [schemaFor, if_neg h]
      exact .fail rfl
  | none =>
    rw [schemaFor]
    split
    · exact .pure fun t ht => by cases ht
    · exact .fail rfl

theorem awaits_message (hn : Descends nested) (wanted : Option UInt8) :
    Awaits (.message wanted) (OfType wanted) (message ctx nested wanted) := by
  intro r hr
  rw [message_apply]
  rcases hp : r.stack.current.progress.parked with _ | ⟨u⟩ | ⟨s⟩
  · have hrests := hr.leads.rests hp
    rw [Reader.unpark_eq_self hp]
    refine (calm_byte r).bind (fun type r' h => ?_) fun r' h =>
      ⟨congrArg Prod.fst h, (hrests.of_settled h).waits _⟩
    have houter : r'.outer = r.outer := congrArg Prod.fst h
    have hrests := hrests.of_settled h
    rw [typedMessage]
    split
    · exact ⟨ofType_none wanted, houter, hrests⟩
    · refine (gives_schemaFor wanted type r').bind (fun s r'' h => ?_) fun _ h => h.elim
      obtain ⟨hs, rfl⟩ := h
      rw [← houter]
      exact ends_nested hn hs hrests.parked (.of_cleared hrests.cleared)
  · have hparked := hr.parked
    rw [hp] at hparked
    cases hparked
  · obtain ⟨hparked, hleads⟩ := hr
    rw [hp] at hparked
    cases hparked with
    | message hs =>
      have htrail : Trail ReadFrame.Holds (some s) r.stack.below := by
        rw [Reader.Leads, ReadProgress.message?, hp] at hleads
        exact hleads
      have hall : wanted.all (· == s.type) = true := by
        cases wanted with
        | none => rfl
        | some t => exact beq_iff_eq.mpr (hs t rfl).symm
      simp only [parkedMessage, if_pos hall]
      exact ends_nested hn hs (Reader.unpark_parked r) htrail

/-- An item that is read is of the kind that it is read as. -/
theorem awaits_item (hn : Descends nested) (kind : ItemKind) :
    Awaits kind kind.Has (item ctx nested kind) := by
  cases kind with
  | primitive k =>
    exact (Awaits.of_calm (fun _ h => by cases h; rfl) (calm_primitive k)).map fun x _ =>
      .primitive k x
  | char => exact (Awaits.of_calm (fun _ h => by cases h; rfl) calm_char).map fun c _ => .char c
  | text =>
    refine (Awaits.of_calm (fun _ h => by cases h; rfl) (calm_text _)).bind fun s _ => ?_
    exact (gives_required .textElement s).map _ fun s _ => .text s
  | uuid => exact (Awaits.of_calm (fun _ h => by cases h; rfl) calm_uuid).map fun u _ => .uuid u
  | grid =>
    exact awaits_grid.bind fun g _ => (gives_required .gridIdElement g).map _ fun g _ => .grid g
  | message wanted =>
    refine (awaits_message hn wanted).bind fun m hm => ?_
    cases m with
    | some m => exact .pure (.message fun t ht => hm t ht m rfl)
    | none => exact .fail (by split <;> exact rfl)

/-! ## Lists and maps -/

variable {r r' : Reader}

theorem outside_eq (h : r'.outer = r.outer) : r'.outside = r.outside :=
  congrArg (fun o => (o.1, o.2.1)) h

theorem around_eq (h : r'.outer = r.outer) (n : Nat) :
    (r'.outside, r'.counts n) = (r.outside, r.counts n) :=
  congrArg (fun o => ((o.1, o.2.1), o.2.2.started, o.2.2.expected, o.2.2.index + n)) h

/-- A step reads one more item of a list or a map, of whose progress `Inside` holds before and
after. -/
def Fills (Inside : ReadProgress → Prop) (step : Read Unit) : Prop :=
  ∀ r : Reader, Inside r.stack.current.progress → r.Leads →
    Ends (fun _ r' => r'.around = (r.outside, r.counts 1) ∧ Inside r'.stack.current.progress ∧
        r'.Rests)
      (fun r' => r'.around = r.around ∧ Inside r'.stack.current.progress ∧ r'.Leads) (step r)

/-- A list or a map is taken out of its frame. -/
def Finishes (Inside : ReadProgress → Prop) (finish : Read β) : Prop :=
  ∀ r : Reader, Inside r.stack.current.progress → r.Rests →
    Ends (fun _ r' => r'.outside = r.outside ∧ r'.stack.Cleared) (fun _ => False) (finish r)

section

variable {Inside : ReadProgress → Prop} {step : Read Unit} {finish : Read β} {limit : Nat}
  {empty : Container}

/-- Where reading the items that are left stops, one of them is still to come. -/
theorem ends_repeated (hstep : Fills Inside step) {n : Nat}
    (hr : Inside r.stack.current.progress) (hleads : r.Leads) (hrests : n = 0 → r.Rests)
    (hn : n = r.stack.current.progress.expected - r.stack.current.progress.index) :
    Ends (fun _ r' => r'.outside = r.outside ∧ Inside r'.stack.current.progress ∧ r'.Rests)
      (fun r' => r'.outside = r.outside ∧ r'.stack.current.progress.Fills Inside ∧ r'.Leads)
      (repeated step n r) := by
  induction n generalizing r with
  | zero => exact ⟨rfl, hr, hrests rfl⟩
  | succ n ih =>
    refine (hstep r hr hleads).bind (fun _ r' h => ?_) fun r' h => ?_
    · obtain ⟨haround, hr', hrests'⟩ := h
      simp only [Reader.around, Reader.counts, Prod.mk.injEq] at haround
      obtain ⟨houtside, -, hexpected, hindex⟩ := haround
      rw [← houtside]
      exact ih hr' hrests'.leads (fun _ => hrests') (by omega)
    · obtain ⟨haround, hr', hleads'⟩ := h
      simp only [Reader.around, Reader.counts, Prod.mk.injEq] at haround
      obtain ⟨houtside, -, hexpected, hindex⟩ := haround
      exact ⟨houtside, .inr ⟨hr', by omega⟩, hleads'⟩

theorem ends_remainder (hstep : Fills Inside step) (hfinish : Finishes Inside finish)
    (hr : Inside r.stack.current.progress) (hleads : r.Leads)
    (hrests : r.Rests ∨ r.stack.current.progress.index < r.stack.current.progress.expected) :
    Ends (fun _ r' => r'.outside = r.outside ∧ r'.stack.Cleared)
      (fun r' => r'.outside = r.outside ∧ r'.stack.current.progress.Fills Inside ∧ r'.Leads)
      (remainder step finish r) := by
  rw [remainder, progress_bind]
  have hnone (hn : r.stack.current.progress.expected - r.stack.current.progress.index = 0) :
      r.Rests := by
    rcases hrests with hrests | hlt
    · exact hrests
    · omega
  refine (ends_repeated hstep hr hleads hnone rfl).bind (fun _ r' h => ?_) fun _ h => h
  obtain ⟨houtside, hr', hrests'⟩ := h
  rw [← houtside]
  exact ((hfinish r' hr' hrests').map some fun _ _ h => h).mono (fun _ _ h => h) fun _ h => h.elim

/-- A list or a map starts from an empty frame, and goes on from where it stopped. -/
theorem ends_container (hbegun : ∀ p, Inside p → p.started = true)
    (hbegin : ∀ (p : ReadProgress) n, p.Vacant →
      Inside { p with started := true, expected := n, container := some empty })
    (hstep : Fills Inside step) (hfinish : Finishes Inside finish)
    (hr : r.stack.current.progress.Fills Inside) (hleads : r.Leads) :
    Ends (fun _ r' => r'.outside = r.outside ∧ r'.stack.Cleared)
      (fun r' => r'.outside = r.outside ∧ r'.stack.current.progress.Fills Inside ∧ r'.Leads)
      (container limit empty step finish r) := by
  rcases hr with hvacant | ⟨hinside, hlt⟩
  · rw [container_of_not_started (by rw [hvacant.unbegun]; decide)]
    have hrests := hleads.rests hvacant.parked
    refine (calm_length limit r).bind (fun n r' h => ?_) fun r' h => ?_
    · have houtside : r'.outside = r.outside := outside_eq (congrArg Prod.fst h)
      have hrests' := hrests.of_settled h
      cases n with
      | none => exact ⟨houtside, hrests'.cleared⟩
      | some n =>
        have hbegun : (r'.begun empty n).Rests := ⟨hrests'.parked, hrests'.cleared⟩
        rw [← houtside]
        exact ends_remainder (r := r'.begun empty n) hstep hfinish
          (hbegin _ n (hvacant.of_settled h)) hbegun.leads (.inl hbegun)
    · exact ⟨outside_eq (congrArg Prod.fst h), .inl (hvacant.of_settled h),
        (hrests.of_settled h).leads⟩
  · rw [container_of_started (hbegun _ hinside)]
    exact ends_remainder hstep hfinish hinside hleads (.inr hlt)

end

/-- The reader with another list or map in its current frame. -/
def contained (r : Reader) (c : Container) : Reader :=
  { r with stack := r.stack.modify fun f => { f with progress :=
    { f.progress with container := some c } } }

theorem pushItem_apply {kind : ItemKind} {xs : Array Item} (x : Item)
    (h : r.stack.current.progress.container = some (.items kind.erased xs)) :
    pushItem kind x r = .ok () (contained r (.items kind.erased (xs.push x))) := by
  rw [pushItem, progress_bind, h, Option.bind_some, Container.items?_items]
  rfl

theorem fills_listStep (hn : Descends nested) (kind : ItemKind) :
    Fills (ReadProgress.Lists kind) (counting (listStep ctx nested kind)) := by
  intro r hr hleads
  rw [counting, listStep, bind_assoc]
  refine (awaits_item hn kind r ⟨hr.parked, hleads⟩).bind (fun x r' h => ?_) fun r' h => ?_
  · obtain ⟨hx, houter, hrests⟩ := h
    have hr' := hr.of_outer (congrArg (fun o => o.2.2) houter) (hrests.waits kind).parked
    obtain ⟨xs, hxs, hhas⟩ := hr'.items
    have haround := around_eq houter 1
    rw [bind_ok (pushItem_apply x hxs)]
    refine ⟨haround, ?_, hrests.parked, hrests.cleared⟩
    exact ⟨hr'.begun, ⟨_, rfl, Array.forall_mem_push.mpr ⟨hx, hhas⟩⟩, rfl, hr'.parked⟩
  · obtain ⟨houter, hwaits⟩ := h
    exact ⟨around_eq houter 0, hr.of_outer (congrArg (fun o => o.2.2) houter) hwaits.parked,
      hwaits.leads⟩

theorem finishes_items (kind : ItemKind) :
    Finishes (ReadProgress.Lists kind) (finishItems kind) := by
  intro r hr hrests
  obtain ⟨xs, hxs, -⟩ := hr.items
  rw [finishItems, progress_bind, modifyProgress_bind, hxs, Option.bind_some,
    Container.items?_items]
  exact ⟨rfl, hrests.cleared⟩

/-- A list of a kind that is not read yet, or only in part. -/
theorem ends_list (hn : Descends nested) (kind : ItemKind)
    (hr : r.stack.current.progress.Fills (ReadProgress.Lists kind)) (hleads : r.Leads) :
    Ends (fun _ r' => r'.outside = r.outside ∧ r'.stack.Cleared)
      (fun r' => r'.outside = r.outside ∧
        r'.stack.current.progress.Fills (ReadProgress.Lists kind) ∧ r'.Leads)
      (list ctx nested kind r) := by
  rw [list_eq]
  refine ends_container (fun _ h => h.begun) (fun p n h => ?_) (fills_listStep hn kind)
    (finishes_items kind) hr hleads
  exact ⟨rfl, ⟨#[], rfl, by simp⟩, h.key, h.parked.symm ▸ .nothing kind⟩

theorem pushEntry_apply {key value : ItemKind} {es : Array (Item × Item)} (k v : Item)
    (h : r.stack.current.progress.container = some (.entries key.erased value.erased es)) :
    pushEntry key value k v r =
      .ok () (contained r (.entries key.erased value.erased (insertEntry es k v))) := by
  rw [pushEntry, progress_bind, h, Option.bind_some, Container.entries?_entries]
  rfl

/-- An entry takes the place of the one with the same key, or is the last one. -/
theorem forall_mem_insertEntry {P Q : Item → Prop} {es : Array (Item × Item)} {k v : Item}
    (h : ∀ e ∈ es, P e.1 ∧ Q e.2) (hk : P k) (hv : Q v) :
    ∀ e ∈ insertEntry es k v, P e.1 ∧ Q e.2 := by
  rw [insertEntry]
  split
  · next i _ =>
    intro e he
    obtain ⟨j, hj, rfl⟩ := Array.mem_iff_getElem.mp he
    rw [Array.getElem_modify]
    split
    · exact ⟨(h _ (Array.getElem_mem _)).1, hv⟩
    · exact h _ (Array.getElem_mem _)
  · exact Array.forall_mem_push.mpr ⟨⟨hk, hv⟩, h⟩

section

variable {key value : ItemKind}

theorem storeEntry_apply {k : Item} {es : Array (Item × Item)} (v : Item)
    (hkey : r.stack.current.progress.key = some k) (hkind : k.kind = key.erased)
    (hes : r.stack.current.progress.container = some (.entries key.erased value.erased es)) :
    storeEntry key value v r = .ok () { r with stack := r.stack.modify fun f => { f with progress :=
      { f.progress with
        key := none
        container := some (.entries key.erased value.erased (insertEntry es k v)) } } } := by
  rw [storeEntry, takeKey, bind_assoc, progress_bind, bind_assoc, modifyProgress_bind, hkey]
  simp only [if_pos hkind]
  exact pushEntry_apply k v hes

/-- The value of an entry whose key is read. -/
theorem ends_value (hn : Descends nested) {k : Item}
    (hr : r.stack.current.progress.Maps key value) (hkey : r.stack.current.progress.key = some k)
    (hk : key.Has k) (hwaits : r.Waits value) :
    Ends (fun _ r' => (r'.outside, r'.counts 0) = (r.outside, r.counts 1) ∧
        r'.stack.current.progress.Maps key value ∧ r'.Rests)
      (fun r' => r'.around = r.around ∧ r'.stack.current.progress.Maps key value ∧ r'.Leads)
      ((item ctx nested value >>= fun v => storeEntry key value v >>= fun _ => itemDone) r) := by
  refine (awaits_item hn value r hwaits).bind (fun v r' h => ?_) fun r' h => ?_
  · obtain ⟨hv, houter, hrests⟩ := h
    have hkey' := (congrArg (fun o => o.2.2.key) houter).trans hkey
    have hbegun := (congrArg (fun o => o.2.2.started) houter).trans hr.begun
    have haround := around_eq houter 1
    obtain ⟨es, hes, hhas⟩ := hr.entries_of_outer (congrArg (fun o => o.2.2) houter)
    rw [bind_ok (storeEntry_apply v hkey' hk.kind_eq hes)]
    refine ⟨haround, ⟨hbegun, ⟨_, rfl, forall_mem_insertEntry hhas hk hv⟩, .inl ⟨rfl, ?_⟩⟩,
      hrests.parked, hrests.cleared⟩
    exact (hrests.waits key).parked
  · obtain ⟨houter, hwaits'⟩ := h
    have houter' := congrArg (fun o => o.2.2) houter
    refine ⟨around_eq houter 0, ⟨?_, hr.entries_of_outer houter', ?_⟩, hwaits'.leads⟩
    · exact (congrArg ReadProgress.started houter').trans hr.begun
    · exact .inr ⟨k, (congrArg ReadProgress.key houter').trans hkey, hk, hwaits'.parked⟩

/-- A key that is read waits for its value. -/
theorem ends_readKey (hn : Descends nested) (hr : r.stack.current.progress.Maps key value)
    (hkey : r.stack.current.progress.key = none) (hwaits : r.Waits key) :
    Ends (fun _ r' => (∀ n, (r'.outside, r'.counts n) = (r.outside, r.counts n)) ∧
        r'.stack.current.progress.Maps key value ∧ r'.Rests ∧
        ∃ k, r'.stack.current.progress.key = some k ∧ key.Has k)
      (fun r' => r'.around = r.around ∧ r'.stack.current.progress.Maps key value ∧ r'.Leads)
      (readKey ctx nested key r) := by
  refine (awaits_item hn key r hwaits).bind (fun k r' h => ?_) fun r' h => ?_
  · obtain ⟨hk, houter, hrests⟩ := h
    have hbegun := (congrArg (fun o => o.2.2.started) houter).trans hr.begun
    have hentries := hr.entries_of_outer (congrArg (fun o => o.2.2) houter)
    have haround := around_eq houter
    exact ⟨haround, ⟨hbegun, hentries, .inr ⟨k, rfl, hk, (hrests.waits value).parked⟩⟩,
      ⟨hrests.parked, hrests.cleared⟩, k, rfl, hk⟩
  · obtain ⟨houter, hwaits'⟩ := h
    have houter' := congrArg (fun o => o.2.2) houter
    refine ⟨around_eq houter 0, ⟨?_, hr.entries_of_outer houter', ?_⟩, hwaits'.leads⟩
    · exact (congrArg ReadProgress.started houter').trans hr.begun
    · exact .inl ⟨(congrArg ReadProgress.key houter').trans hkey, hwaits'.parked⟩

theorem fills_entryStep (hn : Descends nested) (key value : ItemKind) :
    Fills (ReadProgress.Maps key value) (counting (entryStep ctx nested key value)) := by
  intro r hr hleads
  rw [counting, entryStep, bind_assoc]
  simp only [bind_assoc]
  rcases hr.turn with ⟨hkey, hparked⟩ | ⟨k, hkey, hk, hparked⟩
  · rw [bind_apply, once_of_not_seen (by rw [hkey]; rfl), ← bind_apply]
    refine (ends_readKey hn hr hkey ⟨hparked, hleads⟩).bind (fun _ r' h => ?_) fun _ h => h
    obtain ⟨haround, hr', hrests, k, hkey', hk⟩ := h
    refine (ends_value hn hr' hkey' hk (hrests.waits value)).mono ?_ ?_
    · exact fun _ _ h => ⟨h.1.trans (haround 1), h.2⟩
    · exact fun _ h => ⟨h.1.trans (haround 0), h.2⟩
  · rw [bind_ok (once_of_seen (by rw [hkey]; rfl))]
    exact ends_value hn hr hkey hk ⟨hparked, hleads⟩

theorem finishes_entries :
    Finishes (ReadProgress.Maps key value) (finishEntries key value) := by
  intro r hr hrests
  obtain ⟨es, hes, -⟩ := hr.entries
  rw [finishEntries, progress_bind, modifyProgress_bind, hes, Option.bind_some,
    Container.entries?_entries]
  exact ⟨rfl, hrests.cleared⟩

/-- A map of keys and values of these kinds that is not read yet, or only in part. -/
theorem ends_map (hn : Descends nested)
    (hr : r.stack.current.progress.Fills (ReadProgress.Maps key value)) (hleads : r.Leads) :
    Ends (fun _ r' => r'.outside = r.outside ∧ r'.stack.Cleared)
      (fun r' => r'.outside = r.outside ∧
        r'.stack.current.progress.Fills (ReadProgress.Maps key value) ∧ r'.Leads)
      (map ctx nested key value r) := by
  rw [map_eq]
  refine ends_container (fun _ h => h.begun) (fun p n h => ?_) (fills_entryStep hn key value)
    finishes_entries hr hleads
  exact ⟨rfl, ⟨#[], rfl, by simp⟩, .inl ⟨h.key, h.parked.symm ▸ .nothing key⟩⟩

end

/-! ## Fields -/

theorem gives_optional (what : Required) (isOptional : Bool) (x : Option α) :
    Gives (fun _ => True) (optional what isOptional x) := by
  cases isOptional with
  | false => exact (gives_required what x).any some
  | true => exact .pure trivial

theorem gives_absence (what : Required) (a : Absence) (xs : Option (List α)) :
    Gives (fun _ => True) (absence what a xs) := by
  cases a with
  | refused => exact (gives_required what xs).any some
  | kept => exact .pure trivial
  | emptied => exact .pure trivial

theorem gives_lift {x : Except Error α} (h : FailsWith Error.Foreign x) :
    Gives (fun _ => True) (lift x) := by
  cases x with
  | ok x => exact .pure trivial
  | error e => exact .fail (h e rfl)

/-- A field of a kind is read, or stops where its slots hold what it takes out of them. -/
def EndsField (kind : FieldKind) (p : Read α) : Prop :=
  ∀ r : Reader, kind.Fits r.stack.current.progress → r.Leads →
    Ends (fun _ r' => r'.outside = r.outside ∧ r'.stack.Cleared)
      (fun r' => r'.outside = r.outside ∧ kind.Fits r'.stack.current.progress ∧ r'.Leads) (p r)

namespace EndsField

variable {kind : FieldKind} {p : Read α}

theorem bind {q : α → Read β} (hp : EndsField kind p) (hq : ∀ x, Gives (fun _ => True) (q x)) :
    EndsField kind (p >>= q) := by
  refine fun r hr hleads => (hp r hr hleads).bind (fun x r' h => ?_) fun _ h => h
  refine (hq x r').mono (fun y r'' hy => ?_) fun _ h => h.elim
  rw [hy.2]
  exact h

theorem map (g : α → β) (hp : EndsField kind p) : EndsField kind (g <$> p) := by
  rw [map_eq_pure_bind]
  exact hp.bind fun x => .pure trivial

/-- A field that is read like one item. -/
theorem of_awaits {item : ItemKind} {P : α → Prop} (hfits : ∀ p, kind.Fits p ↔ p.Single item)
    (hp : Awaits item P p) : EndsField kind p := by
  intro r hr hleads
  have hsingle := (hfits _).mp hr
  refine (hp r ⟨hsingle.parked, hleads⟩).mono (fun x r' h => ?_) fun r' h => ?_
  · exact ⟨outside_eq h.2.1, h.2.2.cleared⟩
  · obtain ⟨houter, hwaits⟩ := h
    exact ⟨outside_eq houter, (hfits _).mpr
      (hsingle.of_outer (congrArg (fun o => o.2.2) houter) hwaits.parked), hwaits.leads⟩

/-- A field of which nothing is ever set aside. -/
theorem of_calm (hfits : ∀ p, kind.Fits p ↔ p.Vacant) (hp : Calm p) : EndsField kind p := by
  intro r hr hleads
  have hvacant := (hfits _).mp hr
  have hrests := hleads.rests hvacant.parked
  refine (hp r).mono (fun x r' h => ?_) fun r' h => ?_
  · exact ⟨outside_eq (congrArg Prod.fst h), (hrests.of_settled h).cleared⟩
  · exact ⟨outside_eq (congrArg Prod.fst h), (hfits _).mpr (hvacant.of_settled h),
      (hrests.of_settled h).leads⟩

end EndsField

theorem calm_probe : Calm (do
    let x : BitVec 32 ← primitive (.int .w32 .unsigned)
    let r ← get
    return Field.probe [x.toNat / 65536, x.toNat % 65536, r.stack.depth, r.cursor.remaining]) :=
  (calm_primitive _).bind fun _ _ => rfl

theorem endsField (hn : Descends nested) (kind : FieldKind) :
    EndsField kind (field ctx nested kind) := by
  cases kind with
  | primitive k => exact (EndsField.of_calm (fun _ => .rfl) (calm_primitive k)).map _
  | char => exact (EndsField.of_calm (fun _ => .rfl) calm_char).map _
  | text o =>
    exact (EndsField.of_calm (fun _ => .rfl) (calm_text _)).bind fun s =>
      (gives_optional _ o s).any _
  | bytes o =>
    exact (EndsField.of_calm (fun _ => .rfl) (calm_bytes _)).bind fun bs =>
      (gives_optional _ o bs).any _
  | uuid o =>
    exact (EndsField.of_calm (fun _ => .rfl) calm_nullableUuid).bind fun u =>
      (gives_optional _ o u).any _
  | grid o =>
    exact (EndsField.of_awaits (fun _ => .rfl) awaits_grid).bind fun g =>
      (gives_optional _ o g).any _
  | bits o =>
    have hlist : EndsField (.bits o) (list ctx nested (.primitive (.int .w64 .unsigned))) :=
      fun r hr hleads => ends_list hn _ hr hleads
    refine hlist.bind fun ws => ?_
    exact (gives_optional .bitSet o _).any _
  | value =>
    refine (EndsField.of_calm (fun _ => .rfl) (calm_bytes _)).bind fun bs => ?_
    cases bs with
    | some bs => exact (gives_lift (ctx.marshaller.foreign_unmarshal .value bs)).any Field.value
    | none => exact .pure trivial
  | object t =>
    refine (EndsField.of_calm (fun _ => .rfl) (calm_bytes _)).bind fun bs => ?_
    cases bs with
    | some bs => exact (gives_lift (ctx.marshaller.foreign_unmarshal t bs)).any _
    | none => exact (gives_lift (t.foreign_ofValue ctx.marshaller.payloads .null)).any _
  | message wanted => exact (EndsField.of_awaits (fun _ => .rfl) (awaits_message hn wanted)).map _
  | list item a =>
    have hlist : EndsField (.list item a) (list ctx nested item) :=
      fun r hr hleads => ends_list hn _ hr hleads
    exact hlist.bind fun xs => (gives_absence _ a xs).any _
  | map key value a =>
    have hmap : EndsField (.map key value a) (map ctx nested key value) :=
      fun r hr hleads => ends_map hn hr hleads
    exact hmap.bind fun es => (gives_absence _ a es).any _
  | stuck => exact fun r hr hleads => ⟨rfl, hr, hleads⟩
  | probe => exact .of_calm (fun _ => .rfl) calm_probe
  | skipped initial => exact .of_calm (fun _ => .rfl) (.pure _)

/-! ## Messages -/

/-- A message is read, or stops where a trail leads from its level downwards. -/
def EndsMessage (s : Schema) (p : Read Message) : Prop :=
  ∀ r : Reader, Trail ReadFrame.Holds (some s) (r.stack.current :: r.stack.below) →
    Ends (fun m r' => m.type = s.type ∧ r'.stack.above = r.stack.above ∧ r'.stack.Cleared)
      (fun r' => r'.stack.above = r.stack.above ∧
        Trail ReadFrame.Holds (some s) (r'.stack.current :: r'.stack.below)) (p r)

/-- From a field that fits the progress on, fields are read one after the other. -/
theorem ends_fields (hn : Descends nested) {s : Schema} {kinds : List FieldKind}
    (hkinds : kinds = s.sent.drop r.stack.current.fields.length)
    (hfits : ∀ kind, kinds.head? = some kind → kind.Fits r.stack.current.progress)
    (hleads : r.Leads) (hend : kinds = [] → r.stack.Cleared) :
    Ends (fun _ r' => r'.stack.above = r.stack.above ∧ r'.stack.Cleared)
      (fun r' => r'.stack.above = r.stack.above ∧
        Trail ReadFrame.Holds (some s) (r'.stack.current :: r'.stack.below))
      (fields ctx nested kinds r) := by
  induction kinds generalizing r with
  | nil => exact ⟨rfl, hend rfl⟩
  | cons kind kinds ih =>
    have hhead : s.sent[r.stack.current.fields.length]? = some kind := by
      rw [← List.head?_drop, ← hkinds, List.head?_cons]
    have htail : kinds = s.sent.drop (r.stack.current.fields.length + 1) := by
      rw [← List.tail_drop, ← hkinds, List.tail_cons]
    rw [fields]
    refine (endsField hn kind r (hfits kind rfl) hleads).bind (fun f r' h => ?_) fun r' h => ?_
    · obtain ⟨houtside, hcleared⟩ := h
      have habove : r'.stack.above = r.stack.above := congrArg Prod.fst houtside
      have hfields : r'.stack.current.fields = r.stack.current.fields := congrArg Prod.snd houtside
      let done : Reader := { r' with stack := r'.stack.modify fun frame =>
        { fields := frame.fields ++ [f], progress := default } }
      have hlength : done.stack.current.fields.length = r.stack.current.fields.length + 1 := by
        change (r'.stack.current.fields ++ [f]).length = _
        rw [List.length_append, hfields, List.length_singleton]
      rw [← habove]
      exact ih (r := done) (hlength ▸ htail) (fun kind _ => kind.fits_default) (.cleared hcleared)
        fun _ => hcleared
    · obtain ⟨houtside, hfits', hleads'⟩ := h
      have hfields : r'.stack.current.fields = r.stack.current.fields := congrArg Prod.snd houtside
      exact ⟨congrArg Prod.fst houtside,
        .level ⟨⟨kind, hfields ▸ hhead, hfits'⟩, rfl⟩ hleads'⟩

theorem endsMessage_body (hn : Descends nested) (s : Schema) :
    EndsMessage s (body ctx nested s) := by
  intro r hr
  have hfields : Ends (fun _ r' => r'.stack.above = r.stack.above ∧ r'.stack.Cleared)
      (fun r' => r'.stack.above = r.stack.above ∧
        Trail ReadFrame.Holds (some s) (r'.stack.current :: r'.stack.below))
      (fields ctx nested (s.sent.drop r.stack.current.fields.length) r) := by
    cases hr with
    | cleared h =>
      obtain ⟨hcurrent, hcleared⟩ := List.forall_mem_cons.mp h
      refine ends_fields hn rfl (fun kind _ => ?_) (.cleared hcleared) fun _ => hcleared
      rw [hcurrent]
      exact kind.fits_default
    | level h hnext =>
      obtain ⟨kind, hkind, hfits⟩ := h.field
      have hleads : r.Leads := by
        rw [Reader.Leads, h.next]
        exact hnext
      refine ends_fields hn rfl (fun kind' hkind' => ?_) hleads fun hnil => ?_
      · rw [List.head?_drop, hkind] at hkind'
        cases hkind'
        exact hfits
      · rw [← List.head?_eq_none_iff, List.head?_drop, hkind] at hnil
        cases hnil
  exact hfields.bind (fun _ r' h => ⟨rfl, h⟩) fun _ h => h

/-- A message one level down is read, or is set aside where it stops. -/
theorem descends_descend {read : Schema → Read Message} (h : ∀ s, EndsMessage s (read s)) :
    Descends (descend read) := by
  intro s r hparked htrail
  have hrun := h s r.down htrail.descend
  rw [descend_apply]
  rcases hread : read s r.down with ⟨m, r'⟩ | ⟨_ | e, r'⟩ <;> rw [hread] at hrun
  · obtain ⟨htype, habove, hcleared⟩ := hrun
    have hcurrent := (FrameStack.ascend_of_above habove true).2
    have hparked' := (congrArg (·.progress.parked) hcurrent).trans hparked
    exact ⟨htype, Reader.outer_up habove true, hparked', hcleared.ascend⟩
  · obtain ⟨habove, htrail'⟩ := hrun
    exact ⟨Reader.outer_up habove false, rfl, htrail'.ascend habove⟩
  · exact hrun

theorem endsMessage_root (ctx : ReadContext) (levels : Nat) (s : Schema) :
    EndsMessage s (root ctx levels s) := by
  have hdeep : (Error.messageNesting ctx.marshaller.config.maxNestingDepth).Foreign :=
    rfl
  induction levels generalizing s with
  | zero => exact endsMessage_body (descends_fail hdeep) s
  | succ levels ih => exact endsMessage_body (descends_descend ih) s

end Read

end WireCodec
