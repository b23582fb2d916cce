import WireCodec.Proofs.Reading.Routines

/-!
Reading a message can be taken up again wherever it stopped: its items, lists, maps and fields are
routines that can be stopped anywhere, and so is the message, at any depth of nesting.
-/

namespace WireCodec

/-- What a routine that reads a field leaves alone: the levels above and the fields read. -/
def Reader.outside (r : Reader) : List ReadFrame × List Field :=
  (r.stack.above, r.stack.current.fields)

/-- How far a list or a map will be read, after `n` more items. -/
def Reader.counts (r : Reader) (n : Nat) : Bool × Nat × Nat :=
  (r.stack.current.progress.started, r.stack.current.progress.expected,
    r.stack.current.progress.index + n)

/-- What reading an entry leaves alone: what reading a field leaves alone, and how far the list or
the map will be read. -/
def Reader.around (r : Reader) : (List ReadFrame × List Field) × Bool × Nat × Nat :=
  (r.outside, r.counts 0)

/-- The reader one level down. -/
def Reader.down (r : Reader) : Reader := { r with stack := r.stack.descend }

/-- The reader one level up. -/
def Reader.up (r : Reader) (finished : Bool) : Reader :=
  { r with stack := r.stack.ascend finished }

theorem Reader.down_extend (r : Reader) (d : Nat) (bs : Bytes) :
    (r.extend d bs).down = r.down.extend d bs := rfl

theorem Reader.outer_up {r r₁ : Reader} (h : r₁.stack.above = r.down.stack.above)
    (finished : Bool) : (r₁.up finished).outer = r.outer := by
  obtain ⟨⟨above, current, below⟩, cursor⟩ := r₁
  rw [Reader.down, FrameStack.above_descend] at h
  cases h
  rfl

/-- Going down again leads to where a message was left, whatever was set aside above it. -/
theorem Reader.down_up {r r₁ : Reader} (h : r₁.stack.above = r.down.stack.above)
    (hp : r.stack.current.progress.parked = none) (x : Parked) :
    ((r₁.up false).park x).unpark.down = r₁ := by
  obtain ⟨⟨above, current, below⟩, cursor⟩ := r₁
  obtain ⟨⟨above', ⟨fields, progress⟩, below'⟩, cursor'⟩ := r
  obtain ⟨started, expected, index, container, key, headDone, length, gathered, parked⟩ := progress
  rw [Reader.down, FrameStack.above_descend] at h
  cases h
  cases hp
  rfl

theorem Reader.Steady.down {r : Reader} (h : r.Steady) : r.down.Steady :=
  h.descend ReadFrame.steady_default

theorem Reader.Steady.up {r : Reader} (h : r.Steady) (finished : Bool) : (r.up finished).Steady :=
  h.ascend ReadFrame.steady_default finished

/-- The reader once the length of a list or a map is known. -/
def Reader.begun (r : Reader) (empty : Container) (n : Nat) : Reader :=
  { r with stack := r.stack.modify fun f => { f with progress :=
    { f.progress with started := true, expected := n, container := some empty } } }

theorem Reader.Steady.begun {r : Reader} (h : r.Steady) {empty : Container} {n : Nat} :
    (r.begun empty n).Steady :=
  ⟨h.above, h.current, h.below⟩

theorem Reader.counts_add {r r' : Reader} {m : Nat} (h : r'.counts 0 = r.counts m) (n : Nat) :
    r'.counts n = r.counts (m + n) := by
  simp only [Reader.counts, Prod.mk.injEq] at h ⊢
  exact ⟨h.1, h.2.1, by omega⟩

namespace Read

open Step

variable {α : Type} {r r' : Reader}

/-! ## Nested messages -/

/-- What reading a message one level down keeps to. Where it stops, the type of the message is set
aside, and going on takes it from there. -/
structure ReadsMessages (nested : Schema → Read Message) : Prop where
  extension : ∀ s, s.Steady → Extends (nested s)
  frame : ∀ s, Keeps Reader.outer (nested s)
  suspension : ∀ {s r r'}, nested s r = .error .suspended r' →
    r'.stack.current.progress.parked = some (.message s)
  resumption : ∀ {s r r'}, s.Steady → r.Steady → r.stack.current.progress.parked = none →
    nested s r = .error .suspended r' →
    ∀ bs, nested s (r.extend 0 bs) = nested s (r'.unpark.extend 0 bs)

theorem readsMessages_fail (e : Error) : ReadsMessages fun _ => fail e where
  extension _ _ := .fail e
  frame _ := .throw (.failed e)
  suspension h := absurd h (Settles.fail e _ _)
  resumption _ _ _ h := absurd h (Settles.fail e _ _)

section

variable {ctx : ReadContext} {nested : Schema → Read Message}

theorem find?_steady (hctx : ctx.Steady) {type : UInt8} {s : Schema}
    (h : ctx.factories.find? type = some s) : s.Steady :=
  hctx.factories s (List.mem_of_find?_eq_some h)

/-- A type that a field takes messages of, and that has no probes. -/
def Suits (wanted : Option UInt8) (s : Schema) : Prop :=
  s.Steady ∧ wanted.all (· == s.type) = true

theorem schemaFor_suits (hctx : ctx.Steady) (wanted : Option UInt8) (type : UInt8) :
    ∃ x, schemaFor ctx wanted type = lift x ∧ ∀ s, x = .ok s → Suits wanted s := by
  cases wanted with
  | some t =>
    by_cases h : t = type
    · refine ⟨.ok (ctx.catalog.schema t), by simp only [schemaFor, if_pos h, lift], ?_⟩
      rintro s ⟨⟩
      exact ⟨hctx.catalog t, beq_self_eq_true t⟩
    · exact ⟨.error (.otherMessage t type), by simp only [schemaFor, if_neg h, lift], nofun⟩
  | none =>
    cases h : ctx.factories.find? type with
    | some s =>
      refine ⟨.ok s, by simp only [schemaFor, h, lift], ?_⟩
      rintro _ ⟨⟩
      exact ⟨find?_steady hctx h, rfl⟩
    | none => exact ⟨.error (.noFactory type), by simp only [schemaFor, h, lift], nofun⟩

variable (ctx nested) in
/-- A message whose type byte is read. -/
def typedMessage (wanted : Option UInt8) (type : UInt8) : Read (Option Message) :=
  if type = Message.nullType then return none
  else do
    let s ← schemaFor ctx wanted type
    some <$> nested s

variable (nested) in
/-- Past its type byte, a message is absent, refused, or of a type that suits the field. -/
theorem typedMessage_eq (hctx : ctx.Steady) (wanted : Option UInt8) (type : UInt8) :
    (∃ x, typedMessage ctx nested wanted type = lift x) ∨
    (∃ s : Schema, Suits wanted s ∧ typedMessage ctx nested wanted type = some <$> nested s) := by
  by_cases hnull : type = Message.nullType
  · exact .inl ⟨.ok none, if_pos hnull⟩
  · obtain ⟨x, hx, hs⟩ := schemaFor_suits hctx wanted type
    rw [typedMessage, if_neg hnull, hx]
    cases x with
    | ok s => exact .inr ⟨s, hs s rfl, rfl⟩
    | error e => exact .inl ⟨.error e, rfl⟩

variable (ctx nested) in
/-- A message of which nothing is set aside. -/
def freshMessage (wanted : Option UInt8) : Read (Option Message) := do
  typedMessage ctx nested wanted (← byte)

theorem extends_freshMessage (hctx : ctx.Steady) (hn : ReadsMessages nested)
    (wanted : Option UInt8) : Extends (freshMessage ctx nested wanted) := by
  refine resumable_byte.extension.bind fun type => ?_
  rcases typedMessage_eq nested hctx wanted type with ⟨x, hx⟩ | ⟨s, hs, hx⟩
  · rw [hx]
    exact (settled_lift (f := id) x).extension
  · rw [hx]
    exact (hn.extension s hs.1).map some

theorem keeps_freshMessage (hctx : ctx.Steady) (hn : ReadsMessages nested)
    (wanted : Option UInt8) : Keeps Reader.outer (freshMessage ctx nested wanted) := by
  refine (outer_of_stack resumable_byte).frame.bind fun type => ?_
  rcases typedMessage_eq nested hctx wanted type with ⟨x, hx⟩ | ⟨s, -, hx⟩
  · rw [hx]
    exact (settled_lift x).frame
  · rw [hx]
    exact (hn.frame s).map some

variable (nested) in
/-- A message of a type that is set aside. -/
def parkedMessage (wanted : Option UInt8) (s : Schema) : Read (Option Message) :=
  if wanted.all (· == s.type) then some <$> nested s else fail .unexpectedProgress

theorem extends_parkedMessage (hn : ReadsMessages nested) (wanted : Option UInt8) {s : Schema}
    (hs : s.Steady) : Extends (parkedMessage nested wanted s) := by
  rw [parkedMessage]
  split
  · exact (hn.extension s hs).map some
  · exact .fail .unexpectedProgress

theorem keeps_parkedMessage (hn : ReadsMessages nested) (wanted : Option UInt8) (s : Schema) :
    Keeps Reader.outer (parkedMessage nested wanted s) := by
  rw [parkedMessage]
  split
  · exact (hn.frame s).map some
  · exact fun _ => rfl

theorem message_apply (wanted : Option UInt8) (r : Reader) :
    message ctx nested wanted r = match r.stack.current.progress.parked with
      | some (.message s) => parkedMessage nested wanted s r.unpark
      | some (.node _) => fail .unexpectedProgress r.unpark
      | none => freshMessage ctx nested wanted r.unpark := by
  rw [message, takeParked_bind]
  rcases r.stack.current.progress.parked with _ | ⟨u⟩ | ⟨s⟩ <;> rfl

/-- Where a message stopped, reading it again goes on with it. -/
theorem message_of_parked {s : Schema} {wanted : Option UInt8}
    (ht : wanted.all (· == s.type) = true)
    (h : r.stack.current.progress.parked = some (.message s)) (bs : Bytes) :
    message ctx nested wanted (r.extend 0 bs) = (some <$> nested s) (r.unpark.extend 0 bs) := by
  rw [message_apply, Reader.extend_stack, h, Reader.unpark_extend]
  simp only [parkedMessage, if_pos ht]

/-- A message that stopped past its type byte goes on past it. -/
theorem nested_suspended (hn : ReadsMessages nested) {s : Schema} {wanted : Option UInt8}
    (hs : Suits wanted s) (hr : r.Steady) (hp : r.stack.current.progress.parked = none)
    (h : (some <$> nested s) r = .error .suspended r') (bs : Bytes) :
    (some <$> nested s) (r.extend 0 bs) = message ctx nested wanted (r'.extend 0 bs) := by
  have h := error_of_map h
  rw [message_of_parked hs.2 (hn.suspension h)]
  exact map_congr some (hn.resumption hs.1 hr hp h bs)

theorem freshMessage_suspended (hctx : ctx.Steady) (hn : ReadsMessages nested)
    {wanted : Option UInt8} (hr : r.Steady) (hp : r.stack.current.progress.parked = none)
    (h : freshMessage ctx nested wanted r = .error .suspended r') (bs : Bytes) :
    freshMessage ctx nested wanted (r.extend 0 bs) =
      message ctx nested wanted (r'.extend 0 bs) := by
  rw [freshMessage, bind_apply] at h
  cases hb : byte r with
  | error e r₁ =>
    rw [hb] at h
    injection h with he hr'
    subst he hr'
    rw [still_byte r r₁ hb, message_apply, Reader.extend_stack, hp, Reader.unpark_extend,
      Reader.unpark_eq_self hp]
  | ok type r₁ =>
    obtain ⟨hr₁, hb'⟩ := ok_extend resumable_byte.extension hr hb
    have hp₁ : r₁.stack.current.progress.parked = none := by rwa [resumable_byte.frame.ok hb]
    rw [hb] at h
    rw [freshMessage, bind_ok (hb' 0 bs)]
    rcases typedMessage_eq nested hctx wanted type with ⟨x, hx⟩ | ⟨s, hs, hx⟩
    · simp only [hx] at h
      exact absurd h ((settled_lift (f := id) x).settles r₁ r')
    · simp only [hx] at h ⊢
      exact nested_suspended hn hs hr₁ hp₁ h bs

theorem resumable_message (hctx : ctx.Steady) (hn : ReadsMessages nested)
    (wanted : Option UInt8) : Resumable Reader.outer (message ctx nested wanted) where
  extension := by
    intro r hr
    rcases hp : r.stack.current.progress.parked with _ | ⟨u⟩ | ⟨s⟩
    · exact extendsAt_of_extends (extends_freshMessage hctx hn wanted) hr.unpark rfl fun d bs => by
        rw [message_apply, Reader.extend_stack, hp, Reader.unpark_extend]
    · exact extendsAt_of_extends (Extends.fail .unexpectedProgress) hr.unpark rfl fun d bs => by
        rw [message_apply, Reader.extend_stack, hp, Reader.unpark_extend]
        rfl
    · have hs : s.Steady := hr.current s hp
      exact extendsAt_of_extends (extends_parkedMessage hn wanted hs) hr.unpark rfl fun d bs => by
        rw [message_apply, Reader.extend_stack, hp, Reader.unpark_extend]
  frame := by
    refine Keeps.bind (fun _ => rfl) fun parked => ?_
    rcases parked with _ | ⟨u⟩ | ⟨s⟩
    · exact keeps_freshMessage hctx hn wanted
    · exact fun _ => rfl
    · exact keeps_parkedMessage hn wanted s
  resumption := by
    refine resumes_iff.mpr fun r r' hr h bs => ?_
    rw [message_apply] at h
    rw [message_apply, Reader.extend_stack, Reader.unpark_extend]
    rcases hp : r.stack.current.progress.parked with _ | ⟨u⟩ | ⟨s⟩
    · rw [hp] at h
      exact freshMessage_suspended hctx hn hr.unpark (Reader.unpark_parked r) h bs
    · rw [hp] at h
      cases h
    · simp only [hp, parkedMessage] at h ⊢
      split at h
      · next ht =>
        have hs : Suits wanted s := ⟨hr.current s hp, ht⟩
        rw [if_pos ht]
        exact nested_suspended hn hs hr.unpark (Reader.unpark_parked r) h bs
      · cases h

theorem resumable_item (hctx : ctx.Steady) (hn : ReadsMessages nested) (kind : ItemKind) :
    Resumable Reader.outer (item ctx nested kind) := by
  cases kind with
  | primitive k => exact (outer_of_stack (resumable_primitive k)).map _
  | char => exact (outer_of_stack resumable_char).map _
  | text => exact (resumable_text _).bind_settled fun s => (settled_required _ s).map _
  | uuid => exact (outer_of_stack resumable_uuid).map _
  | grid => exact resumable_grid.bind_settled fun g => (settled_required _ g).map _
  | message wanted =>
    refine (resumable_message hctx hn wanted).bind_settled fun m => ?_
    cases m with
    | some m => exact .pure _
    | none => exact .fail _

end

/-! ## Lists and maps -/

/-- A routine that leaves all frames alone leaves alone what is around a field. -/
theorem outside_of_stack {p : Read α} (h : Resumable Reader.stack p) :
    Resumable Reader.outside p :=
  h.comp fun s => (s.above, s.current.fields)

/-- Takes a step so many times. -/
def repeated (step : Read Unit) : Nat → Read Unit
  | 0 => return
  | n + 1 => do
    step
    repeated step n

/-- A step that reads one more item of a list or a map. -/
structure Counts (step : Read Unit) : Prop extends Resumable Reader.outside step where
  counted : ∀ {r r'}, step r = .ok () r' → r'.counts 0 = r.counts 1
  paused : ∀ {r r'}, step r = .error .suspended r' → r'.counts 0 = r.counts 0

section

variable {step : Read Unit}

theorem extends_repeated (h : Counts step) (n : Nat) : Extends (repeated step n) := by
  induction n with
  | zero => exact .pure ()
  | succ n ih => exact h.extension.bind fun _ => ih

theorem keeps_repeated (h : Counts step) (n : Nat) : Keeps Reader.outside (repeated step n) := by
  induction n with
  | zero => exact .pure ()
  | succ n ih => exact h.frame.bind fun _ => ih

/-- Where reading `n` items stopped, `j` of them are read, and reading the others is left. -/
theorem repeated_suspended (h : Counts step) {n : Nat} (hr : r.Steady)
    (hs : repeated step n r = .error .suspended r') :
    ∃ j, r'.counts 0 = r.counts j ∧
      ∀ bs, repeated step n (r.extend 0 bs) = repeated step (n - j) (r'.extend 0 bs) := by
  induction n generalizing r with
  | zero => cases hs
  | succ n ih =>
    rw [repeated, bind_apply] at hs
    cases h₁ : step r with
    | error e r₁ =>
      rw [h₁] at hs
      cases hs
      refine ⟨0, h.paused h₁, fun bs => ?_⟩
      rw [Nat.sub_zero, repeated, bind_apply, bind_apply, resume_extend h.resumption hr h₁ bs]
    | ok u r₁ =>
      obtain ⟨hr₁, he⟩ := ok_extend h.extension hr h₁
      rw [h₁] at hs
      obtain ⟨j, hj, hgo⟩ := ih hr₁ hs
      refine ⟨1 + j, hj.trans (Reader.counts_add (h.counted h₁) j), fun bs => ?_⟩
      rw [repeated, bind_ok (he 0 bs), hgo bs, Nat.add_comm, Nat.add_sub_add_left]

variable {β : Type} {limit : Nat} {empty : Container} {finish : Read β}

/-- Reads the items that are left of a list or a map. -/
def remainder (step : Read Unit) (finish : Read β) : Read (Option β) := do
  let p ← progress
  repeated step (p.expected - p.index)
  some <$> finish

/-- Reads a list or a map, or none for the null length. -/
def container (limit : Nat) (empty : Container) (step : Read Unit) (finish : Read β) :
    Read (Option β) := do
  if ← beginContainer limit empty then remainder step finish else return none

/-- Reads a list or a map once its length is known. -/
def beginRemainder (empty : Container) (step : Read Unit) (finish : Read β) (n : Nat) :
    Read (Option β) := do
  modifyProgress fun p => { p with started := true, expected := n, container := some empty }
  remainder step finish

theorem container_eq : container limit empty step finish = (do
    if (← progress).started then remainder step finish
    else
      match ← length limit with
      | none => return none
      | some n => beginRemainder empty step finish n) := by
  rw [container, beginContainer, bind_assoc]
  refine bind_congr fun p => ?_
  by_cases h : p.started = true
  · rw [if_pos h, if_pos h]
    rfl
  · rw [if_neg h, if_neg h, bind_assoc]
    refine bind_congr fun n => ?_
    cases n <;> rfl

theorem container_of_started (h : r.stack.current.progress.started = true) :
    container limit empty step finish r = remainder step finish r := by
  rw [container_eq, progress_bind, if_pos h]

theorem container_of_not_started (h : ¬ r.stack.current.progress.started = true) :
    container limit empty step finish r = (length limit >>= fun
      | none => pure none
      | some n => beginRemainder empty step finish n) r := by
  rw [container_eq, progress_bind, if_neg h]

theorem extends_remainder (h : Counts step) (hf : Settled Reader.outside finish) :
    Extends (remainder step finish) :=
  extends_progress.bind fun _ => (extends_repeated h _).bind fun _ => hf.extension.map some

theorem keeps_remainder (h : Counts step) (hf : Settled Reader.outside finish) :
    Keeps Reader.outside (remainder step finish) :=
  Keeps.bind (fun _ => rfl) fun _ => (keeps_repeated h _).bind fun _ => hf.frame.map some

/-- The items that are left are known from the number of those that are read. -/
theorem remainder_suspended (h : Counts step) (hf : Settled Reader.outside finish)
    (hr : r.Steady) (hs : remainder step finish r = .error .suspended r') :
    r'.stack.current.progress.started = r.stack.current.progress.started ∧
      ∀ bs, remainder step finish (r.extend 0 bs) = remainder step finish (r'.extend 0 bs) := by
  rw [remainder, progress_bind, bind_apply] at hs
  split at hs
  · exact absurd hs ((hf.settles.map some) _ _)
  · next hrep =>
    cases hs
    obtain ⟨j, hj, hgo⟩ := repeated_suspended h hr hrep
    simp only [Reader.counts, Prod.mk.injEq, Nat.add_zero] at hj
    obtain ⟨hstarted, hexpected, hindex⟩ := hj
    refine ⟨hstarted, fun bs => ?_⟩
    rw [remainder, progress_bind, progress_bind, Reader.extend_stack, Reader.extend_stack,
      hexpected, hindex, Nat.sub_add_eq, bind_apply, bind_apply, hgo bs]

theorem resumable_container (limit : Nat) (empty : Container) (h : Counts step)
    (hf : Settled Reader.outside finish) :
    Resumable Reader.outside (container limit empty step finish) where
  extension := by
    rw [container_eq]
    refine extends_progress.bind fun p => ?_
    split
    · exact extends_remainder h hf
    · refine (resumable_length limit).extension.bind fun n => ?_
      cases n with
      | none => exact .pure none
      | some n => exact Extends.bind (extends_modifyProgress fun _ => .inl rfl) fun _ =>
          extends_remainder h hf
  frame := by
    rw [container_eq]
    refine Keeps.bind (fun _ => rfl) fun p => ?_
    split
    · exact keeps_remainder h hf
    · refine (outside_of_stack (resumable_length limit)).frame.bind fun n => ?_
      cases n with
      | none => exact .pure none
      | some n => exact Keeps.bind (fun _ => rfl) fun _ => keeps_remainder h hf
  resumption := by
    refine resumes_iff.mpr fun r r' hr hs bs => ?_
    have hread {r₁ : Reader} (hd : r₁.stack.current.progress.started = true) :
        container limit empty step finish (r₁.extend 0 bs) =
          remainder step finish (r₁.extend 0 bs) := container_of_started hd
    by_cases hd : r.stack.current.progress.started = true
    · rw [container_of_started hd] at hs
      obtain ⟨hstarted, hgo⟩ := remainder_suspended h hf hr hs
      rw [hread hd, hread (hstarted.trans hd), hgo]
    · rw [container_of_not_started hd, bind_apply] at hs
      cases hl : length limit r with
      | error e r₁ =>
        rw [hl] at hs
        cases hs
        rw [still_length limit r r' hl]
      | ok n r₁ =>
        obtain ⟨hr₁, hl'⟩ := ok_extend (resumable_length limit).extension hr hl
        rw [hl] at hs
        cases n with
        | none => cases hs
        | some n =>
          have hd' : ¬ (r.extend 0 bs).stack.current.progress.started = true := hd
          have hs : remainder step finish (r₁.begun empty n) = .error .suspended r' := hs
          obtain ⟨hstarted, hgo⟩ := remainder_suspended h hf hr₁.begun hs
          rw [container_of_not_started hd', bind_ok (hl' 0 bs), hread hstarted]
          exact hgo bs

end

/-! ## Items and entries -/

section

variable {ctx : ReadContext} {nested : Schema → Read Message} {lead : Read Unit}

/-- Reads an item and counts it. -/
def counting (lead : Read Unit) : Read Unit := do
  lead
  itemDone

theorem settled_itemDone : Settled Reader.outside itemDone :=
  settled_modifyProgress (fun _ => .inl rfl) fun _ => rfl

theorem counts_counting (h : Resumable Reader.around lead) : Counts (counting lead) where
  toResumable := (h.comp Prod.fst).bind_settled fun _ => settled_itemDone
  counted := by
    intro r r' hs
    obtain ⟨u, r₁, hlead, hdone⟩ := ok_of_bind hs
    cases hdone
    exact Reader.counts_add ((h.frame.comp Prod.snd).ok hlead) 1
  paused := by
    intro r r' hs
    rw [counting, bind_apply] at hs
    cases hl : lead r with
    | ok u r₁ => rw [hl] at hs; cases hs
    | error e r₁ => rw [hl] at hs; cases hs; exact (h.frame.comp Prod.snd).error hl

variable (ctx nested) in
/-- Reads the next item of a list. -/
def listStep (kind : ItemKind) : Read Unit := do pushItem kind (← item ctx nested kind)

variable (ctx nested) in
/-- Reads the next key of a map. -/
def readKey (key : ItemKind) : Read Unit := do
  let k ← item ctx nested key
  modifyProgress fun p => { p with key := some k }

/-- Adds an entry with the key that is read. -/
def storeEntry (key value : ItemKind) (v : Item) : Read Unit := do
  pushEntry key value (← takeKey key) v

variable (ctx nested) in
/-- Reads the next entry of a map. -/
def entryStep (key value : ItemKind) : Read Unit := do
  once (fun r => r.stack.current.progress.key.isSome) (readKey ctx nested key)
  storeEntry key value (← item ctx nested value)

theorem items_eq (kind : ItemKind) (n : Nat) :
    items ctx nested kind n = repeated (counting (listStep ctx nested kind)) n := by
  induction n with
  | zero => rfl
  | succ n ih => simp only [items, repeated, counting, listStep, bind_assoc, ih]

theorem entries_succ (key value : ItemKind) (n : Nat) : entries ctx nested key value (n + 1) = (do
    once (fun r => r.stack.current.progress.key.isSome) (readKey ctx nested key)
    let v ← item ctx nested value
    storeEntry key value v
    itemDone
    entries ctx nested key value n) := by
  simp only [storeEntry, bind_assoc]
  funext r
  rw [entries, progress_bind, bind_apply]
  cases h : r.stack.current.progress.key with
  | some k =>
    rw [once_of_seen (by rw [h]; rfl)]
    rfl
  | none =>
    rw [once_of_not_seen (by rw [h]; rfl), ← bind_apply, readKey, bind_assoc]
    rfl

theorem entries_eq (key value : ItemKind) (n : Nat) :
    entries ctx nested key value n = repeated (counting (entryStep ctx nested key value)) n := by
  induction n with
  | zero => rfl
  | succ n ih => simp only [entries_succ, repeated, counting, entryStep, bind_assoc, ih]

theorem settled_pushItem (kind : ItemKind) (x : Item) :
    Settled Reader.around (pushItem kind x) := by
  refine settled_progress.bind fun p => ?_
  split
  · exact settled_modifyProgress (fun _ => .inl rfl) fun _ => rfl
  · exact .fail _

theorem settled_pushEntry (key value : ItemKind) (k v : Item) :
    Settled Reader.around (pushEntry key value k v) := by
  refine settled_progress.bind fun p => ?_
  split
  · exact settled_modifyProgress (fun _ => .inl rfl) fun _ => rfl
  · exact .fail _

theorem settled_takeKey (kind : ItemKind) : Settled Reader.around (takeKey kind) := by
  refine settled_progress.bind fun p => ?_
  refine Settled.bind (settled_modifyProgress (fun _ => .inl rfl) fun _ => rfl) fun _ => ?_
  split
  · split
    · exact .pure _
    · exact .fail _
  · exact .fail _

theorem settled_storeEntry (key value : ItemKind) (v : Item) :
    Settled Reader.around (storeEntry key value v) :=
  (settled_takeKey key).bind fun k => settled_pushEntry key value k v

theorem settled_finishItems (kind : ItemKind) : Settled Reader.outside (finishItems kind) := by
  refine settled_progress.bind fun p => ?_
  refine Settled.bind (settled_modifyProgress (fun _ => .inl rfl) fun _ => rfl) fun _ => ?_
  split
  · exact .pure _
  · exact .fail _

theorem settled_finishEntries (key value : ItemKind) :
    Settled Reader.outside (finishEntries key value) := by
  refine settled_progress.bind fun p => ?_
  refine Settled.bind (settled_modifyProgress (fun _ => .inl rfl) fun _ => rfl) fun _ => ?_
  split
  · exact .pure _
  · exact .fail _

theorem around_of_outer {p : Read α} (h : Resumable Reader.outer p) :
    Resumable Reader.around p :=
  h.comp fun (above, fields, p) => ((above, fields), p.started, p.expected, p.index + 0)

/-- An item leaves the key that waits for it. -/
theorem key_of_outer {p : Read α} (h : Resumable Reader.outer p) :
    Keeps (fun r => r.stack.current.progress.key) p :=
  h.frame.comp fun (_, _, p) => p.key

theorem counts_listStep (hctx : ctx.Steady) (hn : ReadsMessages nested) (kind : ItemKind) :
    Counts (counting (listStep ctx nested kind)) :=
  counts_counting ((around_of_outer (resumable_item hctx hn kind)).bind_settled
    (settled_pushItem kind))

theorem resumable_readKey (hctx : ctx.Steady) (hn : ReadsMessages nested) (key : ItemKind) :
    Resumable Reader.around (readKey ctx nested key) :=
  (around_of_outer (resumable_item hctx hn key)).bind_settled fun _ =>
    settled_modifyProgress (fun _ => .inl rfl) fun _ => rfl

/-- An entry that stopped past its key goes on past its key. -/
theorem counts_entryStep (hctx : ctx.Steady) (hn : ReadsMessages nested) (key value : ItemKind) :
    Counts (counting (entryStep ctx nested key value)) := by
  have hkey (kind : ItemKind) {r r' : Reader}
      (h : item ctx nested kind r = .error .suspended r') :
      r'.stack.current.progress.key.isSome = r.stack.current.progress.key.isSome :=
    congrArg Option.isSome ((key_of_outer (resumable_item hctx hn kind)).error h)
  have hvalue : Resumable Reader.around (do storeEntry key value (← item ctx nested value)) :=
    (around_of_outer (resumable_item hctx hn value)).bind_settled (settled_storeEntry key value)
  refine counts_counting (.once_bind (fun _ _ _ => rfl) (resumable_readKey hctx hn key) ?_ ?_
    hvalue ?_)
  · intro r r' h
    exact hkey key (suspended_of_bind (fun _ => settles_modifyFrame _) h)
  · intro r r' h
    obtain ⟨k, r₁, -, hdone⟩ := ok_of_bind h
    cases hdone
    rfl
  · intro r r' h
    exact hkey value (suspended_of_bind (fun v => (settled_storeEntry key value v).settles) h)

theorem list_eq (kind : ItemKind) : list ctx nested kind =
    container ctx.marshaller.config.maxArrayLength (.ofItems kind)
      (counting (listStep ctx nested kind)) (finishItems kind) := by
  simp only [list, container, remainder, items_eq]

theorem map_eq (key value : ItemKind) : map ctx nested key value =
    container ctx.marshaller.config.maxArrayLength (.ofEntries key value)
      (counting (entryStep ctx nested key value)) (finishEntries key value) := by
  simp only [map, container, remainder, entries_eq]

theorem resumable_list (hctx : ctx.Steady) (hn : ReadsMessages nested) (kind : ItemKind) :
    Resumable Reader.outside (list ctx nested kind) := by
  rw [list_eq]
  exact resumable_container _ _ (counts_listStep hctx hn kind) (settled_finishItems kind)

theorem resumable_map (hctx : ctx.Steady) (hn : ReadsMessages nested) (key value : ItemKind) :
    Resumable Reader.outside (map ctx nested key value) := by
  rw [map_eq]
  exact resumable_container _ _ (counts_entryStep hctx hn key value)
    (settled_finishEntries key value)

/-! ## Fields -/

theorem settled_optional {β δ : Type} {f : Reader → δ} (what : Required) (isOptional : Bool)
    (x : Option β) : Settled f (optional what isOptional x) := by
  cases isOptional
  · exact (settled_required what x).map some
  · exact .pure x

theorem settled_absence {β δ : Type} {f : Reader → δ} (what : Required) (a : Absence)
    (xs : Option (List β)) : Settled f (absence what a xs) := by
  cases a with
  | refused => exact (settled_required what xs).map some
  | kept => exact .pure xs
  | emptied => exact .pure _

theorem outside_of_outer {p : Read α} (h : Resumable Reader.outer p) :
    Resumable Reader.outside p :=
  h.comp fun (above, fields, _) => (above, fields)

theorem resumable_field (hctx : ctx.Steady) (hn : ReadsMessages nested) (kind : FieldKind)
    (hk : kind ≠ .probe) : Resumable Reader.outside (field ctx nested kind) := by
  cases kind with
  | primitive k => exact (outside_of_stack (resumable_primitive k)).map _
  | char => exact (outside_of_stack resumable_char).map _
  | text o =>
    exact (outside_of_outer (resumable_text _)).bind_settled fun s => (settled_optional _ o s).map _
  | bytes o =>
    exact (outside_of_outer (resumable_bytes _)).bind_settled fun bs =>
      (settled_optional _ o bs).map _
  | uuid o =>
    exact (outside_of_stack resumable_nullableUuid).bind_settled fun u =>
      (settled_optional _ o u).map _
  | grid o =>
    exact (outside_of_outer resumable_grid).bind_settled fun g => (settled_optional _ o g).map _
  | bits o =>
    exact (resumable_list hctx hn _).bind_settled fun ws => (settled_optional .bitSet o _).map _
  | value =>
    refine (outside_of_outer (resumable_bytes _)).bind_settled fun bs => ?_
    cases bs with
    | some bs => exact (settled_lift _).map _
    | none => exact .pure _
  | object t =>
    refine (outside_of_outer (resumable_bytes _)).bind_settled fun bs => ?_
    cases bs with
    | some bs => exact (settled_lift _).map _
    | none => exact (settled_lift _).map _
  | message wanted => exact (outside_of_outer (resumable_message hctx hn wanted)).map _
  | list kind a =>
    exact (resumable_list hctx hn kind).bind_settled fun xs => (settled_absence _ a xs).map _
  | map key value a =>
    exact (resumable_map hctx hn key value).bind_settled fun es => (settled_absence _ a es).map _
  | stuck => exact .suspend
  | probe => exact absurd rfl hk
  | skipped initial => exact .of_settled (.pure _)

theorem keeps_field (hctx : ctx.Steady) (hn : ReadsMessages nested) (kind : FieldKind) :
    Keeps Reader.outside (field ctx nested kind) := by
  by_cases hk : kind = .probe
  · rw [hk]
    exact (outside_of_stack (resumable_primitive _)).frame.bind fun _ =>
      Keeps.bind (fun _ => rfl) fun _ => .pure _
  · exact (resumable_field hctx hn kind hk).frame

variable (ctx nested) in
/-- Reads a field and adds it to those that are read. -/
def fieldStep (kind : FieldKind) : Read Unit := do
  let f ← field ctx nested kind
  modifyFrame fun frame => { fields := frame.fields ++ [f], progress := default }

theorem fields_eq (kinds : List FieldKind) :
    fields ctx nested kinds = forEach (fieldStep ctx nested) kinds := by
  induction kinds with
  | nil => rfl
  | cons kind kinds ih => simp only [fields, forEach, fieldStep, bind_assoc, ih]

theorem settled_fieldDone (f : Field) : Settled (fun r => r.stack.above)
    (modifyFrame fun frame => { fields := frame.fields ++ [f], progress := default }) := by
  refine settled_modifyFrame (fun frame _ s hs => ?_) fun _ => rfl
  cases hs

theorem counted_fieldStep (hctx : ctx.Steady) (hn : ReadsMessages nested) (kind : FieldKind)
    (hk : kind ≠ .probe) :
    Counted (fun r => r.stack.above) (fun r => r.stack.current.fields.length)
      (fieldStep ctx nested) kind where
  toResumable :=
    ((resumable_field hctx hn kind hk).comp Prod.fst).bind_settled settled_fieldDone
  done := by
    intro r r' h
    obtain ⟨f, r₁, hread, hdone⟩ := ok_of_bind h
    have hlength : r₁.stack.current.fields.length = r.stack.current.fields.length :=
      congrArg (fun o => o.2.length) ((keeps_field hctx hn kind).ok hread)
    cases hdone
    simp [FrameStack.modify, hlength]
  paused := by
    intro r r' h
    have h := suspended_of_bind (fun f => (settled_fieldDone f).settles) h
    exact congrArg (fun o => o.2.length) ((keeps_field hctx hn kind).error h)

theorem keeps_fields (hctx : ctx.Steady) (hn : ReadsMessages nested) (kinds : List FieldKind) :
    Keeps (fun r => r.stack.above) (fields ctx nested kinds) := by
  induction kinds with
  | nil => exact .pure ()
  | cons kind kinds ih =>
    exact ((keeps_field hctx hn kind).comp Prod.fst).bind fun f =>
      Keeps.bind (fun _ => rfl) fun _ => ih

/-- Gives the message whose fields are read. -/
def finishBody (s : Schema) : Read Message := do return s.build (← get).stack.current.fields

theorem settled_finishBody (s : Schema) : Settled (fun r => r.stack.above) (finishBody s) :=
  settled_look fun st => s.build st.current.fields

/-- Reading a message from its first unread field on. -/
theorem body_eq (s : Schema) : body ctx nested s = (do
    forEachFrom (fun r => r.stack.current.fields.length) (fieldStep ctx nested) s.sent
    finishBody s) := by
  simp only [body, forEachFrom, fields_eq, bind_assoc]
  rfl

theorem keeps_body (hctx : ctx.Steady) (hn : ReadsMessages nested) (s : Schema) :
    Keeps (fun r => r.stack.above) (body ctx nested s) :=
  fun r => ((keeps_fields hctx hn _).bind fun _ => (settled_finishBody s).frame) r

theorem resumable_body (hctx : ctx.Steady) (hn : ReadsMessages nested) {s : Schema}
    (hs : s.Steady) : Resumable (fun r => r.stack.above) (body ctx nested s) := by
  rw [body_eq]
  refine (resumable_forEachFrom (fun _ _ _ => rfl) fun kind hk => ?_).bind_settled fun _ =>
    settled_finishBody s
  exact counted_fieldStep hctx hn kind fun h => hs (h ▸ Schema.mem_fields_of_mem_sent hk)

end

/-! ## Levels -/

section

variable {ctx : ReadContext} {read : Schema → Read Message}

theorem descend_apply (s : Schema) (r : Reader) : descend read s r = match read s r.down with
    | .ok m r => .ok m (r.up true)
    | .error (.failed e) r => .error (.failed e) (r.up false)
    | .error .suspended r => .error .suspended ((r.up false).park (.message s)) := rfl

/-- A message one level down goes on where it stopped: what was set aside of it tells its type, and
its fields are in the frame that was left behind. -/
theorem readsMessages_descend (hk : ∀ s, Keeps (fun r => r.stack.above) (read s))
    (h : ∀ s : Schema, s.Steady → Resumable (fun r => r.stack.above) (read s)) :
    ReadsMessages (descend read) where
  extension := by
    intro s hs r hr
    cases hread : read s r.down with
    | ok m r₁ =>
      obtain ⟨hr₁, he⟩ := ok_extend (h s hs).extension hr.down hread
      have hc : r.down.cursor.Precedes r₁.cursor := ok_precedes (h s hs).extension hr.down hread
      refine extendsAt_of_ok m (hr₁.up true) hc fun d bs => ?_
      rw [descend_apply, Reader.down_extend, he d bs]
      rfl
    | error e r₁ =>
      cases e with
      | failed e =>
        have he := failed_extend (h s hs).extension hr.down hread
        refine extendsAt_of_failed e (r₁.up false) fun d bs => ?_
        rw [descend_apply, Reader.down_extend, he d bs]
        rfl
      | suspended =>
        obtain ⟨hr₁, he⟩ := suspended_extend (h s hs).extension hr.down hread
        have hpark (s' : Schema) (hs' : Parked.message s = .message s') : s'.Steady := by
          cases hs'
          exact hs
        have hc : r.down.cursor.Precedes r₁.cursor :=
          suspended_precedes (h s hs).extension hr.down hread
        have he (d : Nat) : descend read s (r.extend d []) =
            .error .suspended (((r₁.up false).park (.message s)).extend d []) := by
          rw [descend_apply, Reader.down_extend, he d]
          rfl
        refine extendsAt_of_suspended ((hr₁.up false).park hpark) hc he fun {bs x t} ht => ?_
        rw [descend_apply, Reader.down_extend] at ht
        cases hm : read s (r.down.extend 0 bs) with
        | error stop t₁ => cases stop <;> rw [hm] at ht <;> cases ht
        | ok m t₁ =>
          rw [hm] at ht
          cases ht
          have hx : r.down.cursor.Exceeds t₁.cursor :=
            exceeds_extend (h s hs).extension hr.down hread hm
          exact hx
  frame := by
    intro s r
    rw [descend_apply]
    cases hread : read s r.down with
    | ok m r₁ => exact Reader.outer_up ((hk s).ok hread) true
    | error e r₁ =>
      have habove := Reader.outer_up ((hk s).error hread) false
      cases e with
      | failed e => exact habove
      | suspended => exact habove
  suspension := by
    intro s r r' hd
    rw [descend_apply] at hd
    split at hd
    · cases hd
    · cases hd
    · cases hd
      rfl
  resumption := by
    intro s r r' hs hr hp hd bs
    rw [descend_apply] at hd
    cases hread : read s r.down with
    | ok m r₁ => rw [hread] at hd; cases hd
    | error e r₁ =>
      cases e with
      | failed e => rw [hread] at hd; cases hd
      | suspended =>
        rw [hread] at hd
        cases hd
        have hdown := Reader.down_up ((h s hs).frame.error hread) hp (.message s)
        rw [descend_apply, descend_apply, Reader.down_extend, Reader.down_extend, hdown,
          resume_extend (h s hs).resumption hr.down hread bs]

theorem readsMessages_root (hctx : ctx.Steady) (levels : Nat) :
    ReadsMessages (descend (root ctx levels)) := by
  induction levels with
  | zero =>
    have hn := readsMessages_fail (.messageNesting ctx.marshaller.config.maxNestingDepth)
    exact readsMessages_descend (keeps_body hctx hn) fun s hs => resumable_body hctx hn hs
  | succ levels ih =>
    exact readsMessages_descend (keeps_body hctx ih) fun s hs => resumable_body hctx ih hs

/-- Reading a message can be stopped anywhere. -/
theorem resumable_root (hctx : ctx.Steady) (levels : Nat) {s : Schema} (hs : s.Steady) :
    Resumable (fun r => r.stack.above) (root ctx levels s) := by
  cases levels with
  | zero => exact resumable_body hctx (readsMessages_fail _) hs
  | succ levels => exact resumable_body hctx (readsMessages_root hctx levels) hs

end

end Read

end WireCodec
