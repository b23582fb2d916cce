import WireCodec.Proofs.Reading.Whole
import WireCodec.Proofs.RoundTrip.Arrival
import WireCodec.Proofs.Writing.Failures
import WireCodec.Proofs.Writing.Levels

/-!
Reading takes from the bytes of a message what was written there: the routines of the reader go
through the pieces of items, lists, maps, fields and messages (`Read.Undoes`), whose lengths and
bytes are those that the reader expects, and at each level of nesting those of the level below it.
Where a message is cut off because it is nested too deep, the reader refuses it.
-/

namespace WireCodec

theorem ReadContext.limit_le (ctx : ReadContext) : ctx.limit ≤ Encode.maxLength :=
  ctx.marshaller.config.arrayLength_le

/-- From a frame, with nothing left behind below it, a routine fails within some bytes, whatever
follows them: messages are nested in them deeper than so many levels. -/
def Read.Refuses {α : Type} (depth : Nat) (f : ReadFrame) (p : Read α) (bs : Bytes) : Prop :=
  ∀ (r : Reader) (more : Bytes), r.stack.current = f → r.stack.Cleared →
    r.cursor.rest = bs ++ more → ∃ r', p r = .error (.failed (.messageNesting depth)) r'

/-- From a frame, a routine reads a value from the bytes of an emission that does not fail, and
leaves another frame. Where the emission is cut off because of its depth, the routine fails. -/
structure Read.Undoes {α : Type} (depth : Nat) (f : ReadFrame) (p : Read α) (e : Emission) (x : α)
    (g : ReadFrame) : Prop where
  takes : e.failure = none → Takes f p e.bytes x g
  refuses : e.failure = some (.messageNesting depth) → Refuses depth f p e.bytes

theorem Error.Unmarshallable.ne_messageNesting {e : Error} (h : e.Unmarshallable) (depth : Nat) :
    e ≠ .messageNesting depth := by
  rintro rfl
  rcases h with h | h <;> cases h

namespace Read

open Step

variable {α β : Type} {depth : Nat} {f g h : ReadFrame} {p q : Read α} {a b : Emission}
  {bs cs : Bytes} {x : α}

namespace Refuses

theorem fail (depth : Nat) (f : ReadFrame) :
    Refuses depth f (Read.fail (.messageNesting depth) : Read α) [] :=
  fun r _ _ _ _ => ⟨r, rfl⟩

theorem bind {q : α → Read β} (hp : Refuses depth f p bs) : Refuses depth f (p >>= q) bs := by
  intro r more hf hc hrest
  obtain ⟨r', hrun⟩ := hp r more hf hc hrest
  exact ⟨r', bind_error hrun⟩

/-- A routine and then one that fails. -/
theorem of_takes {q : α → Read β} (hp : Takes f p bs x g) (hq : Refuses depth g (q x) cs) :
    Refuses depth f (p >>= q) (bs ++ cs) := by
  intro r more hf hc hrest
  rw [List.append_assoc] at hrest
  obtain ⟨r₁, hrun, hpass⟩ := hp r (cs ++ more) hf hc hrest
  obtain ⟨r₂, hrun₂⟩ := hq r₁ more hpass.current hpass.cleared (by rw [hpass.cursor])
  exact ⟨r₂, (bind_ok hrun).trans hrun₂⟩

end Refuses

namespace Undoes

theorem of_takes (ha : a.failure = none) (hp : Takes f p a.bytes x g) : Undoes depth f p a x g where
  takes _ := hp
  refuses hcut := by
    rw [ha] at hcut
    cases hcut

theorem whole (hp : Takes f p bs x g) : Undoes depth f p (.whole bs) x g :=
  .of_takes rfl (by rwa [Emission.bytes_whole])

theorem failed {e : Error} (h : e ≠ .messageNesting depth) : Undoes depth f p (.failed e) x g where
  takes := nofun
  refuses hcut := absurd (Option.some.inj hcut) h

/-- Messages that are nested too deep are cut off, and refused. -/
theorem cut (depth : Nat) (f : ReadFrame) (x : α) (g : ReadFrame) :
    Undoes depth f (fail (.messageNesting depth)) (.failed (.messageNesting depth)) x g where
  takes := nofun
  refuses _ := .fail depth f

theorem empty (hp : Takes f p [] x g) : Undoes depth f p .empty x g := .of_takes rfl hp

theorem pure (f : ReadFrame) (x : α) : Undoes depth f (Pure.pure x) .empty x f :=
  .empty (.pure f x)

/-- A routine that does the same from a frame. -/
theorem congr (h : ∀ r : Reader, r.stack.current = f → p r = q r) (hq : Undoes depth f q a x g) :
    Undoes depth f p a x g where
  takes hok r more hf hc hrest := by
    rw [h r hf]
    exact hq.takes hok r more hf hc hrest
  refuses hcut r more hf hc hrest := by
    rw [h r hf]
    exact hq.refuses hcut r more hf hc hrest

theorem bind {q : α → Read β} {y : β} (hp : Undoes depth f p a x g)
    (hq : Undoes depth g (q x) b y h) : Undoes depth f (p >>= q) (a.andThen b) y h where
  takes hok := by
    obtain ⟨ha, hb⟩ := Emission.failure_eq_none_of_andThen hok
    rw [Emission.bytes_andThen ha]
    exact (hp.takes ha).bind (hq.takes hb)
  refuses hcut := by
    cases ha : a.failure with
    | none =>
      rw [Emission.failure_andThen ha] at hcut
      rw [Emission.bytes_andThen ha]
      exact .of_takes (hp.takes ha) (hq.refuses hcut)
    | some e =>
      rw [Emission.andThen_of_failure ha] at hcut ⊢
      exact (hp.refuses hcut).bind

/-- A routine and then one that takes nothing. -/
theorem bind_nil {q : α → Read β} {y : β} (hp : Undoes depth f p a x g)
    (hq : Takes g (q x) [] y h) : Undoes depth f (p >>= q) a y h where
  takes hok := (hp.takes hok).bind_nil hq
  refuses hcut := (hp.refuses hcut).bind

theorem map (u : α → β) (hp : Undoes depth f p a x g) : Undoes depth f (u <$> p) a (u x) g := by
  rw [map_eq_pure_bind]
  exact hp.bind_nil (.pure g (u x))

/-- A step that is still to be taken. -/
theorem once {seen : Reader → Bool} {p : Read Unit} (hp : Undoes depth f p a () g)
    (hseen : ∀ r : Reader, r.stack.current = f → seen r = false) :
    Undoes depth f (WireCodec.once seen p) a () g :=
  .congr (fun r hr => once_of_not_seen (hseen r hr)) hp

end Undoes

/-! ## Lengths, byte strings and ids -/

variable {limit : Nat}

theorem undoes_length (f : ReadFrame) {n : Nat} (hn : n ≤ limit)
    (hlimit : limit ≤ Encode.maxLength) :
    Undoes depth f (length limit) (.ofResult (Layout.length n)) (some n) f := by
  rw [Layout.length_of_le (Nat.le_trans hn hlimit)]
  exact .whole (takes_length f hn hlimit)

theorem undoes_bytes (hf : f.Idle) (hn : bs.length ≤ limit) (hlimit : limit ≤ Encode.maxLength) :
    Undoes depth f (bytes limit) (.chunk bs) (some bs) f := by
  have hchunk : Emission.chunk bs =
      (Emission.whole (LittleEndian.toBytes 4 bs.length)).andThen ⟨[.stream bs], none⟩ := by
    rw [Emission.chunk, Layout.length_of_le (Nat.le_trans hn hlimit)]
    rfl
  have hbytes : (Emission.chunk bs).bytes = LittleEndian.toBytes 4 bs.length ++ bs := by
    rw [hchunk]
    simp [Emission.bytes, Emission.andThen, Emission.whole, Piece.bytes]
  refine .of_takes (by rw [hchunk]; rfl) ?_
  rw [hbytes]
  exact takes_bytes hf hn hlimit

theorem undoes_bytes_null (hf : f.Idle) (limit : Nat) :
    Undoes depth f (bytes limit) .null none f := .whole (takes_bytes_null hf limit)

theorem undoes_text (hf : f.Idle) {s : String} (hn : (Utf8.encode s).length ≤ limit)
    (hlimit : limit ≤ Encode.maxLength) :
    Undoes depth f (text limit) (.chunk (Utf8.encode s)) (some s) f := by
  refine (undoes_bytes hf hn hlimit).bind_nil ?_
  simp only [Utf8.decode?_encode]
  exact .pure f (some s)

theorem undoes_text_null (hf : f.Idle) (limit : Nat) :
    Undoes depth f (text limit) .null none f :=
  (undoes_bytes_null hf limit).bind_nil (.pure f none)

theorem undoes_char (f : ReadFrame) (c : Char) :
    Undoes depth f char (.ofResult (Encode.char c)) c f := by
  cases hc : Encode.char c with
  | ok bs => exact .whole (takes_char f hc)
  | error e =>
    have hunmarshallable : e.Unmarshallable := .inl (Encode.failsWith_char c e hc)
    exact .failed (hunmarshallable.ne_messageNesting depth)

theorem undoes_grid (hf : f.Idle) (nested : Message → Emission) (g : GridId) :
    Undoes depth f grid (.ofItem nested (.grid g)) (some g) f := by
  have hgrid := takes_grid hf g
  refine .of_takes rfl ?_
  rw [Emission.ofItem, Emission.bytes_andThen rfl, Emission.bytes_whole, Emission.bytes_whole]
  exact hgrid

/-- What a marshaller made of a value is read back by the function that takes it back. -/
theorem undoes_staged (hf : f.Idle) {encoded : Except Error Bytes} {decode : Bytes → Except Error α}
    (hlimit : limit ≤ Encode.maxLength) (hfails : FailsWith Error.Unmarshallable encoded)
    (h : ∀ bs, encoded = .ok bs → bs.length ≤ limit ∧ decode bs = .ok x) {u : α → β}
    {absent : Read β} :
    Undoes depth f (do
      match ← bytes limit with
      | some bs => u <$> lift (decode bs)
      | none => absent) (.staged encoded) (u x) f := by
  cases encoded with
  | error e => exact .failed ((hfails e rfl).ne_messageNesting depth)
  | ok bs =>
    obtain ⟨hlength, hdecode⟩ := h bs rfl
    refine (undoes_bytes hf hlength hlimit).bind_nil ?_
    simp only [hdecode]
    exact .map u (.lift f x)

/-! ## Nested messages -/

/-- Messages that fit a type begin with their type byte, and are read back past it, which leaves the
frame around them as it is. -/
def ReadsBack (depth : Nat) (fits : Schema → Message → Prop) (nested : Schema → Read Message)
    (part : Message → Emission) : Prop :=
  ∀ s msg, fits s msg → ∃ e, part msg = (Emission.whole [msg.type]).andThen e ∧
    ∀ f, Undoes depth f (nested s) e msg.received f

section

variable {ctx : ReadContext} {m : Marshaller} {fits : Schema → Message → Prop}
  {nested : Schema → Read Message} {part : Message → Emission} {wanted : Option UInt8}

theorem typedMessage_of_knows {type : UInt8} {s : Schema} (h : ctx.Knows wanted type s) :
    typedMessage ctx nested wanted type = some <$> nested s := by
  obtain ⟨hnull, hknown⟩ := h
  rw [typedMessage, if_neg hnull]
  cases wanted with
  | some t =>
    obtain ⟨rfl, rfl⟩ := hknown
    simp only [schemaFor, if_true, pure_bind]
  | none => simp only [schemaFor, hknown, pure_bind]

theorem undoes_message_of_fresh (hf : f.Idle) {msg : Option Message}
    (h : Undoes depth f (freshMessage ctx nested wanted) a msg f) :
    Undoes depth f (message ctx nested wanted) a msg f := by
  refine .congr (fun r hr => ?_) h
  have hparked : r.stack.current.progress.parked = none := by rw [hr, hf.unparked]
  rw [message_apply, hparked, Reader.unpark_eq_self hparked]

theorem undoes_message_none (ctx : ReadContext) (nested : Schema → Read Message) (hf : f.Idle)
    (wanted : Option UInt8) :
    Undoes depth f (message ctx nested wanted) (.whole [Message.nullType]) none f := by
  refine undoes_message_of_fresh hf (.whole ((takes_byte f Message.nullType).bind_nil ?_))
  exact .pure f none

theorem undoes_message (h : ReadsBack depth fits nested part) (hf : f.Idle) {msg : Message}
    {s : Schema} (hs : ctx.Knows wanted msg.type s) (hmsg : fits s msg) :
    Undoes depth f (message ctx nested wanted) (part msg) (some msg.received) f := by
  obtain ⟨e, hpart, hundoes⟩ := h s msg hmsg
  have htyped : Undoes depth f (typedMessage ctx nested wanted msg.type) e
      (some msg.received) f := by
    rw [typedMessage_of_knows hs]
    exact (hundoes f).map some
  rw [hpart]
  exact undoes_message_of_fresh hf ((Undoes.whole (takes_byte f msg.type)).bind htyped)

theorem undoes_item (h : ReadsBack depth fits nested part) (hf : f.Idle) {kind : ItemKind}
    {x : Item} (hx : x.Fits ctx fits kind) :
    Undoes depth f (item ctx nested kind) (.ofItem part x) x.received f := by
  cases hx with
  | primitive k x => exact .whole ((takes_primitive f k x).map (Item.primitive k))
  | char c => exact (undoes_char f c).map Item.char
  | text hlength => exact (undoes_text hf hlength ctx.limit_le).bind_nil (.pure f _)
  | uuid u => exact .whole ((takes_uuid f u).map Item.uuid)
  | grid g => exact (undoes_grid hf part g).bind_nil (.pure f _)
  | message hs hmsg => exact (undoes_message h hf hs hmsg).bind_nil (.pure f _)

/-! ## Lists and maps -/

/-- Steps for each of a list, from frames that keep what is done of it. -/
theorem undoes_repeated {β : Type} {step : Read Unit} {part : β → Emission}
    (frame : List β → ReadFrame) {all : List β}
    (h : ∀ done x rest, all = done ++ x :: rest →
      Undoes depth (frame done) step (part x) () (frame (done ++ [x])))
    {done xs : List β} (hall : all = done ++ xs) :
    Undoes depth (frame done) (repeated step xs.length) (.each part xs) () (frame all) := by
  -- On the items that are left; those that are done are in the frame.
  induction xs generalizing done with
  | nil =>
    rw [hall, List.append_nil]
    exact .pure _ ()
  | cons x xs ih =>
    have hrest : all = (done ++ [x]) ++ xs := by rw [hall, List.append_assoc]; rfl
    exact (h done x xs hall).bind (ih hrest)

end

end Read

/-- The frame once the length of a list or a map is known. -/
def ReadFrame.begun (f : ReadFrame) (empty : Container) (n : Nat) : ReadFrame :=
  { f with progress := { f.progress with
    started := true, expected := n, container := some empty } }

/-- The frame once one more item of a list or a map is read. -/
def ReadFrame.counted (f : ReadFrame) : ReadFrame :=
  { f with progress := { f.progress with index := f.progress.index + 1, key := none } }

/-- The frame of a body that has read some fields, and some of the items of a list of length `n`. -/
def ReadFrame.ofItems (fields : List Field) (kind : ItemKind) (n : Nat) (done : List Item) :
    ReadFrame :=
  ⟨fields, { (default : ReadProgress) with
    started := true, expected := n, index := done.length
    container := some (.items kind.erased (done.map Item.received).toArray) }⟩

/-- The frame of a body that has read some fields, some of the entries of a map of length `n`, and
perhaps one more key. -/
def ReadFrame.ofEntries (fields : List Field) (key value : ItemKind) (n : Nat)
    (done : List (Item × Item)) (k : Option Item) : ReadFrame :=
  ⟨fields, { (default : ReadProgress) with
    started := true, expected := n, index := done.length, key := k
    container := some (.entries key.erased value.erased (done.map Item.receivedEntry).toArray) }⟩

namespace Read

variable {depth : Nat} {f g h : ReadFrame}

theorem undoes_counting {lead : Read Unit} {e : Emission} (h : Undoes depth f lead e () g) :
    Undoes depth f (counting lead) e () g.counted :=
  h.bind_nil (.modifyProgress _ g)

theorem takes_pushItem {kind : ItemKind} {xs : Array Item}
    (hf : f.progress.container = some (.items kind.erased xs)) (x : Item) :
    Takes f (pushItem kind x) [] () { f with progress := { f.progress with
      container := some (.items kind.erased (xs.push x)) } } := by
  refine .progress_bind ?_
  rw [hf, Option.bind_some, Container.items?_items]
  exact .modifyProgress _ f

theorem insertEntry_of_forall {es : Array (Item × Item)} {key : Item}
    (h : ∀ e ∈ es, e.1.sameKey key = false) (value : Item) :
    insertEntry es key value = es.push (key, value) := by
  have hnone : (es.findIdx? fun e => e.1.sameKey key) = none := by
    rw [Array.findIdx?_eq_none_iff]
    exact h
  rw [insertEntry, hnone]

theorem takes_takeKey {kind : ItemKind} {k : Item} (hf : f.progress.key = some k)
    (hk : k.kind = kind.erased) :
    Takes f (takeKey kind) [] k { f with progress := { f.progress with key := none } } := by
  refine .progress_bind ((Takes.modifyProgress _ f).bind_nil ?_)
  rw [hf]
  dsimp only
  rw [if_pos hk]
  exact .pure _ k

theorem takes_pushEntry {key value : ItemKind} {es : Array (Item × Item)} {k : Item}
    (hf : f.progress.container = some (.entries key.erased value.erased es))
    (hnew : ∀ e ∈ es, e.1.sameKey k = false) (v : Item) :
    Takes f (pushEntry key value k v) [] () { f with progress := { f.progress with
      container := some (.entries key.erased value.erased (es.push (k, v))) } } := by
  refine .progress_bind ?_
  rw [hf, Option.bind_some, Container.entries?_entries, ← insertEntry_of_forall hnew v]
  exact .modifyProgress _ f

section

variable {ctx : ReadContext} {m : Marshaller} {fits : Schema → Message → Prop}
  {nested : Schema → Read Message} {part : Message → Emission}

theorem undoes_listStep (h : ReadsBack depth fits nested part) {kind : ItemKind} {x : Item}
    (hx : x.Fits ctx fits kind) (fields : List Field) (n : Nat) (done : List Item) :
    Undoes depth (.ofItems fields kind n done) (counting (listStep ctx nested kind))
      (.ofItem part x) () (.ofItems fields kind n (done ++ [x])) := by
  have hitem := undoes_item (f := .ofItems fields kind n done) h ⟨rfl, rfl, rfl, rfl⟩ hx
  have hframe : ReadFrame.ofItems fields kind n (done ++ [x]) = ReadFrame.counted ⟨fields,
      { (ReadFrame.ofItems fields kind n done).progress with
        container := some (.items kind.erased
          ((done.map Item.received).toArray.push x.received)) }⟩ := by
    rw [ReadFrame.ofItems, List.push_toArray, List.map_append, List.length_append]
    rfl
  rw [hframe]
  exact undoes_counting (hitem.bind_nil (takes_pushItem rfl x.received))

/-- The key of an entry is read and kept until its value is read. -/
theorem undoes_entryStep (h : ReadsBack depth fits nested part) {key value : ItemKind}
    {e : Item × Item} (hkey : e.1.Fits ctx fits key) (hvalue : e.2.Fits ctx fits value)
    (fields : List Field) (n : Nat) {done : List (Item × Item)}
    (hnew : ∀ e' ∈ done, e'.1.sameKey e.1 = false) :
    Undoes depth (.ofEntries fields key value n done none)
      (counting (entryStep ctx nested key value))
      ((Emission.ofItem part e.1).andThen (.ofItem part e.2)) ()
      (.ofEntries fields key value n (done ++ [e]) none) := by
  have hread : Undoes depth (.ofEntries fields key value n done none) (readKey ctx nested key)
      (.ofItem part e.1) () (.ofEntries fields key value n done (some e.1.received)) :=
    (undoes_item h ⟨rfl, rfl, rfl, rfl⟩ hkey).bind_nil (.modifyProgress _ _)
  have hitem := undoes_item (f := .ofEntries fields key value n done (some e.1.received)) h
    ⟨rfl, rfl, rfl, rfl⟩ hvalue
  have hreceived : ∀ e' ∈ (done.map Item.receivedEntry).toArray,
      e'.1.sameKey e.1.received = false := by
    intro e' he'
    obtain ⟨e'', he'', rfl⟩ := List.mem_map.mp (List.mem_toArray.mp he')
    exact (Item.sameKey_received _ _).trans (hnew e'' he'')
  have hframe : ReadFrame.ofEntries fields key value n (done ++ [e]) none = ReadFrame.counted
      ⟨fields, { (ReadFrame.ofEntries fields key value n done none).progress with
        container := some (.entries key.erased value.erased
          ((done.map Item.receivedEntry).toArray.push (Item.receivedEntry e))) }⟩ := by
    rw [ReadFrame.ofEntries, List.push_toArray, List.map_append, List.length_append]
    rfl
  rw [hframe]
  refine undoes_counting ((hread.once fun r hr => by rw [hr]; rfl).bind (hitem.bind_nil ?_))
  exact (takes_takeKey rfl hkey.kind_received).bind_nil
    (takes_pushEntry rfl hreceived e.2.received)

/-- A list or a map whose items are read one after the other. -/
theorem undoes_container {γ : Type} {limit n : Nat} {empty : Container} {step : Read Unit}
    {finish : Read γ} {y : γ} {e : Emission} (hn : n ≤ limit) (hlimit : limit ≤ Encode.maxLength)
    (hf : f.progress.started = false) (hindex : f.progress.index = 0)
    (hsteps : Undoes depth (f.begun empty n) (repeated step n) e () g)
    (hfinish : Takes g finish [] y h) :
    Undoes depth f (container limit empty step finish)
      ((Emission.ofResult (Layout.length n)).andThen e) (some y) h := by
  have hremainder : Undoes depth (f.begun empty n) (remainder step finish) e (some y) h := by
    have hleft : (f.begun empty n).progress.expected - (f.begun empty n).progress.index = n := by
      change n - f.progress.index = n
      rw [hindex, Nat.sub_zero]
    refine .congr (fun r hr => ?_) (hsteps.bind_nil (q := fun _ => some <$> finish)
      (hfinish.map some))
    rw [remainder, progress_bind, hr, hleft]
  have hbegin : Undoes depth f (beginRemainder empty step finish n) e (some y) h :=
    (Undoes.empty (.modifyProgress _ f)).bind hremainder
  refine .congr (fun r hr => container_of_not_started ?_) ((undoes_length f hn hlimit).bind hbegin)
  rw [hr, hf]
  exact Bool.false_ne_true

theorem undoes_container_null {γ : Type} {empty : Container} {step : Read Unit} {finish : Read γ}
    (limit : Nat) (hf : f.progress.started = false) :
    Undoes depth f (container limit empty step finish) .null none f := by
  refine .congr (fun r hr => container_of_not_started ?_) (.whole ?_)
  · rw [hr, hf]
    exact Bool.false_ne_true
  · exact (takes_null f limit).bind_nil (.pure f none)

theorem takes_finishItems {kind : ItemKind} {xs : Array Item}
    (hf : f.progress.container = some (.items kind.erased xs)) :
    Takes f (finishItems kind) [] xs.toList
      { f with progress := { f.progress with container := none } } := by
  refine .progress_bind ((Takes.modifyProgress _ f).bind_nil ?_)
  rw [hf, Option.bind_some, Container.items?_items]
  exact .pure _ xs.toList

theorem takes_finishEntries {key value : ItemKind} {es : Array (Item × Item)}
    (hf : f.progress.container = some (.entries key.erased value.erased es)) :
    Takes f (finishEntries key value) [] es.toList
      { f with progress := { f.progress with container := none } } := by
  refine .progress_bind ((Takes.modifyProgress _ f).bind_nil ?_)
  rw [hf, Option.bind_some, Container.entries?_entries]
  exact .pure _ es.toList

/-- A field leaves its progress in any state. -/
theorem undoes_list (h : ReadsBack depth fits nested part) {kind : ItemKind} {items : List Item}
    (hlength : items.length ≤ ctx.limit) (hitems : ∀ x ∈ items, x.Fits ctx fits kind)
    (fields : List Field) : ∃ progress, Undoes depth ⟨fields, default⟩ (list ctx nested kind)
      (.ofList part (some items)) (some (items.map Item.received)) ⟨fields, progress⟩ := by
  have hsteps : Undoes depth (.ofItems fields kind items.length [])
      (repeated (counting (listStep ctx nested kind)) items.length)
      (.each (.ofItem part) items) () (.ofItems fields kind items.length items) := by
    refine undoes_repeated (.ofItems fields kind items.length) (fun done x rest hall => ?_) rfl
    have hx : x ∈ items := hall ▸ List.mem_append_right _ List.mem_cons_self
    exact undoes_listStep h (hitems x hx) fields items.length done
  rw [list_eq]
  exact ⟨_, undoes_container hlength ctx.limit_le rfl rfl hsteps (takes_finishItems rfl)⟩

theorem undoes_map (h : ReadsBack depth fits nested part) {key value : ItemKind}
    {entries : List (Item × Item)} (hlength : entries.length ≤ ctx.limit)
    (hkeys : ∀ e ∈ entries, e.1.Fits ctx fits key)
    (hvalues : ∀ e ∈ entries, e.2.Fits ctx fits value)
    (hdistinct : entries.Pairwise fun e e' => e.1.sameKey e'.1 = false) (fields : List Field) :
    ∃ progress, Undoes depth ⟨fields, default⟩ (map ctx nested key value)
      (.ofMap part (some entries))
      (some (entries.map Item.receivedEntry)) ⟨fields, progress⟩ := by
  have hsteps : Undoes depth (.ofEntries fields key value entries.length [] none)
      (repeated (counting (entryStep ctx nested key value)) entries.length)
      (.each (fun e => (Emission.ofItem part e.1).andThen (.ofItem part e.2)) entries) ()
      (.ofEntries fields key value entries.length entries none) := by
    refine undoes_repeated (fun done => .ofEntries fields key value entries.length done none)
      (fun done e rest hall => ?_) rfl
    have he : e ∈ entries := hall ▸ List.mem_append_right _ List.mem_cons_self
    have hnew : ∀ e' ∈ done, e'.1.sameKey e.1 = false := by
      rw [hall, List.pairwise_append] at hdistinct
      exact fun e' he' => hdistinct.2.2 e' he' e List.mem_cons_self
    exact undoes_entryStep h (hkeys e he) (hvalues e he) fields entries.length hnew
  rw [map_eq]
  exact ⟨_, undoes_container hlength ctx.limit_le rfl rfl hsteps (takes_finishEntries rfl)⟩

theorem undoes_list_null (ctx : ReadContext) (nested : Schema → Read Message) (kind : ItemKind)
    (fields : List Field) :
    Undoes depth ⟨fields, default⟩ (list ctx nested kind) .null none ⟨fields, default⟩ := by
  rw [list_eq]
  exact undoes_container_null _ rfl

theorem undoes_map_null (ctx : ReadContext) (nested : Schema → Read Message) (key value : ItemKind)
    (fields : List Field) :
    Undoes depth ⟨fields, default⟩ (map ctx nested key value) .null none ⟨fields, default⟩ := by
  rw [map_eq]
  exact undoes_container_null _ rfl

/-! ## Fields and levels -/

theorem takes_optional {α : Type} {what : Required} {o : Bool} {x : Option α}
    (h : x = none → o = true) (f : ReadFrame) : Takes f (optional what o x) [] x f := by
  cases o with
  | true => exact .pure f x
  | false =>
    cases x with
    | some x => exact .pure f (some x)
    | none => cases h rfl

theorem takes_absence {α : Type} (what : Required) (a : Absence) (xs : List α) (f : ReadFrame) :
    Takes f (absence what a (some xs)) [] (some xs) f := by
  cases a <;> exact .pure f (some xs)

/-- The words of a bit set are read as a list of numbers. -/
theorem undoes_words (h : ReadsBack depth fits nested part) {words : List (BitVec 64)}
    (hlength : words.length ≤ ctx.limit) (fields : List Field) :
    ∃ progress, Undoes depth ⟨fields, default⟩
      (list ctx nested (.primitive (.int .w64 .unsigned))) (.ofList part (words.map Item.ofWord))
      (some (words.map Item.ofWord)) ⟨fields, progress⟩ := by
  have hfits : ∀ x ∈ words.map Item.ofWord,
      x.Fits ctx fits (.primitive (.int .w64 .unsigned)) := by
    intro x hx
    obtain ⟨w, -, rfl⟩ := List.mem_map.mp hx
    exact .primitive (.int .w64 .unsigned) w
  have hreceived : (words.map Item.ofWord).map Item.received = words.map Item.ofWord := by
    rw [List.map_map]
    rfl
  have hlist := undoes_list h (by rwa [List.length_map]) hfits fields
  rwa [hreceived] at hlist

theorem undoes_field (h : ReadsBack depth fits nested part) {kind : FieldKind} {x : Field}
    (hx : x.Fits m ctx fits kind) (fields : List Field) :
    ∃ progress, Undoes depth ⟨fields, default⟩ (field ctx nested kind) (.ofField part m x)
      x.received ⟨fields, progress⟩ := by
  have hidle : ReadFrame.Idle ⟨fields, default⟩ := ⟨rfl, rfl, rfl, rfl⟩
  have hlimit := ctx.limit_le
  cases hx with
  | primitive k x => exact ⟨_, .whole ((takes_primitive _ k x).map (Field.primitive k))⟩
  | char c => exact ⟨_, (undoes_char _ c).map Field.char⟩
  | @text o s hpresent hlength =>
    cases s with
    | none => exact ⟨_, (undoes_text_null hidle _).bind_nil ((takes_optional hpresent _).map _)⟩
    | some s =>
      exact ⟨_, (undoes_text hidle (hlength s rfl) hlimit).bind_nil
        ((takes_optional hpresent _).map _)⟩
  | @bytes o bs hpresent hlength =>
    cases bs with
    | none => exact ⟨_, (undoes_bytes_null hidle _).bind_nil ((takes_optional hpresent _).map _)⟩
    | some bs =>
      exact ⟨_, (undoes_bytes hidle (hlength bs rfl) hlimit).bind_nil
        ((takes_optional hpresent _).map _)⟩
  | @uuid o u hpresent =>
    exact ⟨_, .whole ((takes_nullableUuid _ u).bind_nil ((takes_optional hpresent _).map _))⟩
  | @grid o g hpresent =>
    cases g with
    | none =>
      exact ⟨_, .whole ((takes_grid_none hidle).bind_nil ((takes_optional hpresent _).map _))⟩
    | some g => exact ⟨_, (undoes_grid hidle part g).bind_nil ((takes_optional hpresent _).map _)⟩
  | @bits o s hpresent hlength =>
    cases s with
    | none =>
      exact ⟨_, (undoes_list_null ctx nested _ fields).bind_nil
        ((takes_optional hpresent _).map _)⟩
    | some s =>
      obtain ⟨progress, hlist⟩ := undoes_words h (hlength s rfl) fields
      refine ⟨progress, hlist.bind_nil ?_⟩
      simp only [Option.map_some, Item.filterMap_word?, BitSet.ofWords_words]
      exact (takes_optional hpresent _).map Field.bits
  | @value v hback =>
    refine ⟨default, ?_⟩
    rw [Emission.ofField]
    split
    · next hnull =>
      cases v <;> cases hnull
      exact (undoes_bytes_null hidle _).bind_nil (.pure _ _)
    · exact undoes_staged hidle hlimit (v.failsWith_encode.mono fun _ => .inl) hback
  | object hback =>
    exact ⟨_, undoes_staged hidle hlimit (m.failsWith_marshalErased _ _) hback⟩
  | absent wanted => exact ⟨_, (undoes_message_none ctx nested hidle wanted).map _⟩
  | message hs hmsg => exact ⟨_, (undoes_message h hidle hs hmsg).map _⟩
  | noList kind => exact ⟨_, (undoes_list_null ctx nested kind fields).bind_nil (.pure _ _)⟩
  | @list kind a items hlength hitems =>
    obtain ⟨progress, hlist⟩ := undoes_list h hlength hitems fields
    refine ⟨progress, ?_⟩
    rw [Field.received, Item.receivedAll_eq]
    exact hlist.bind_nil ((takes_absence .array a _ _).map _)
  | noMap key value =>
    exact ⟨_, (undoes_map_null ctx nested key value fields).bind_nil (.pure _ _)⟩
  | @map key value a entries hlength hkeys hvalues hdistinct =>
    obtain ⟨progress, hmap⟩ := undoes_map h hlength hkeys hvalues hdistinct fields
    refine ⟨progress, ?_⟩
    rw [Field.received, Item.receivedEntries_eq]
    exact hmap.bind_nil ((takes_absence .map a _ _).map _)
  | skipped initial content => exact ⟨_, .pure _ (Field.skipped initial initial)⟩

theorem undoes_fieldStep (h : ReadsBack depth fits nested part) {kind : FieldKind} {x : Field}
    (hx : x.Fits m ctx fits kind) (fields : List Field) :
    Undoes depth ⟨fields, default⟩ (fieldStep ctx nested kind) (.ofField part m x) ()
      ⟨fields ++ [x.received], default⟩ := by
  obtain ⟨progress, hfield⟩ := undoes_field h hx fields
  exact hfield.bind_nil (.modifyFrame _ _)

theorem undoes_fields (h : ReadsBack depth fits nested part) {kinds : List FieldKind}
    {xs : List Field} (hlength : kinds.length = xs.length)
    (hxs : ∀ p ∈ kinds.zip xs, p.2.Fits m ctx fits p.1) (done : List Field) :
    Undoes depth ⟨done, default⟩ (forEach (fieldStep ctx nested) kinds)
      (.each (.ofField part m) xs) () ⟨done ++ xs.map Field.received, default⟩ := by
  induction kinds generalizing xs done with
  | nil =>
    cases List.eq_nil_of_length_eq_zero hlength.symm
    rw [List.map_nil, List.append_nil]
    exact .pure _ ()
  | cons kind kinds ih =>
    cases xs with
    | nil => cases hlength
    | cons x xs =>
      obtain ⟨hx, hxs⟩ := List.forall_mem_cons.mp hxs
      have hrest := ih (Nat.succ.inj hlength) hxs (done ++ [x.received])
      rw [List.append_assoc] at hrest
      exact (undoes_fieldStep h hx done).bind hrest

/-- The fields that are written are read, and the skipped ones are those of a new message. -/
theorem undoes_body (h : ReadsBack depth fits nested part) {s : Schema} {xs : List Field}
    (hlength : s.fields.length = xs.length)
    (hxs : ∀ p ∈ s.fields.zip xs, p.2.Fits m ctx fits p.1) : let msg := Message.mk s.type xs
    Undoes depth default (body ctx nested s) (.each (.ofField part m) msg.sent) msg.received
      ⟨msg.sent.map Field.received, default⟩ := by
  intro msg
  let read := msg.sent.map Field.received
  obtain ⟨hsent, hsentFits⟩ := Field.Fits.sent hlength hxs
  have hfields : Undoes depth default (forEachFrom (fun r => r.stack.current.fields.length)
      (fieldStep ctx nested) s.sent) (.each (.ofField part m) msg.sent) () ⟨read, default⟩ := by
    refine .congr (fun r hr => ?_) (undoes_fields h hsent hsentFits [])
    rw [forEachFrom, Step.get_bind, hr]
    rfl
  have hbuild : s.build read = msg.received := by
    rw [Message.received_mk, ← Field.Fits.fill hlength hxs]
    rfl
  have hfinish : Takes ⟨read, default⟩ (finishBody s) [] msg.received ⟨read, default⟩ := by
    intro r more hr hc hrest
    exact ⟨r, by rw [finishBody, Step.get_bind, hr, ← hbuild]; rfl, Reader.passes_nil hr hc hrest⟩
  rw [body_eq]
  exact hfields.bind_nil hfinish

end

/-- A message one level down leaves the frame above it as it is. -/
theorem undoes_descend {read : Schema → Read Message} {s : Schema} {e : Emission} {msg : Message}
    (h : Undoes depth default (read s) e msg g) (f : ReadFrame) :
    Undoes depth f (descend read s) e msg f where
  takes hok r more hr hc hrest := by
    obtain ⟨hdown, hcleared⟩ := hc.descend
    obtain ⟨r', hrun, hpass⟩ := h.takes hok r.down more hdown hcleared hrest
    obtain ⟨habove, hcurrent⟩ := FrameStack.ascend_of_above hpass.above true
    exact ⟨r'.up true, by rw [descend_apply, hrun], habove, hcurrent.trans hr,
      hpass.cleared.ascend, hpass.cursor⟩
  refuses hcut r more hr hc hrest := by
    obtain ⟨hdown, hcleared⟩ := hc.descend
    obtain ⟨r', hrun⟩ := h.refuses hcut r.down more hdown hcleared hrest
    exact ⟨r'.up false, by rw [descend_apply, hrun]⟩

/-- Messages below the last level are refused where they are cut off, behind their type bytes. -/
theorem readsBack_cutOff (depth : Nat) (fits : Schema → Message → Prop) :
    ReadsBack depth fits (fun _ => fail (.messageNesting depth)) (Emission.cutOff depth) :=
  fun _ msg _ => ⟨_, rfl, fun f => .cut depth f msg.received f⟩

/-- What is written of a message with some number of levels below it is read back with as many, and
refused where it is cut off below them. -/
theorem undoes_root {m : Marshaller} {ctx : ReadContext} (levels : Nat) {s : Schema} {msg : Message}
    (hmsg : msg.Fits m ctx s) : let depth := ctx.marshaller.config.maxNestingDepth
    ∃ e g, Emission.layered m (Emission.cutOff depth) levels msg =
        (Emission.whole [msg.type]).andThen e ∧
      Undoes depth default (root ctx levels s) e msg.received g := by
  intro depth
  induction levels generalizing s msg with
  | zero =>
    obtain ⟨hlength, hxs⟩ := hmsg
    exact ⟨_, _, rfl, undoes_body (readsBack_cutOff depth _) hlength hxs⟩
  | succ levels ih =>
    obtain ⟨hlength, hxs⟩ := hmsg
    refine ⟨_, _, rfl, undoes_body (fun s inner hinner => ?_) hlength hxs⟩
    obtain ⟨e, g, hinner, hundoes⟩ := ih hinner
    exact ⟨e, hinner, undoes_descend hundoes⟩

/-- What is written of a message to its end is read back. -/
theorem takes_root {m : Marshaller} {ctx : ReadContext} (levels : Nat) {s : Schema} {msg : Message}
    (hmsg : msg.Fits m ctx s) (hok : (Emission.ofMessage m levels msg).failure = none) :
    ∃ bs g, (Emission.ofMessage m levels msg).bytes = msg.type :: bs ∧
      Takes default (root ctx levels s) bs msg.received g := by
  obtain ⟨e, g, hlayered, hundoes⟩ := undoes_root levels hmsg
  rw [Emission.ofMessage_eq] at hok ⊢
  have hheight := Emission.height_le_of_layered (fun _ h => by cases h) hok
  rw [Emission.layered_eq hheight hheight, hlayered] at hok ⊢
  refine ⟨e.bytes, g, ?_, hundoes.takes (Emission.failure_eq_none_of_andThen hok).2⟩
  rw [Emission.bytes_andThen rfl, Emission.bytes_whole]
  rfl

end Read

end WireCodec
