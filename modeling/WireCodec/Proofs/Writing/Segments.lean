import WireCodec.Proofs.Writing.Emissions

/-!
# Segments of messages

A message is written segment by segment. All segments but the values are known beforehand; a value
is encoded when it is first reached, by the marshaller of that moment, and what came out then is
written from there on. `Segment.under` is what a script of segments stands for if some marshaller is
in force at each offset. With one marshaller throughout, the script of a message stands for its
emission (`Message.Plain.standsFor`).
-/

namespace WireCodec

/-- A part of what is to be written of a message. -/
inductive Segment where
  /-- bytes that are written together -/
  | whole (bs : Bytes)
  /-- bytes that may be cut anywhere -/
  | stream (bs : Bytes)
  /-- a value that is encoded when it is reached -/
  | value (encoded : Marshaller → Except Error Bytes)
  | failed (e : Error)
  /-- no room is enough -/
  | waiting

namespace Segment

/-- Bytes that are written together, or the error that stands in their place. -/
def ofResult : Except Error Bytes → List Segment
  | .ok bs => [whole bs]
  | .error e => [failed e]

/-- A length, and then a byte string. -/
def chunk (bs : Bytes) : List Segment := ofResult (Layout.length bs.length) ++ [stream bs]

/-- A value that is encoded. -/
def staged : Except Error Bytes → List Segment
  | .ok bs => chunk bs
  | .error e => [failed e]

/-- The null length. -/
def null : List Segment := [whole Layout.nullLengthBytes]

section

variable (nested : Message → List Segment)

/-- The segments of an item. -/
def ofItem : Item → List Segment
  | .primitive k x => [whole (k.encode x)]
  | .char c => ofResult (Encode.char c)
  | .text s => chunk (Utf8.encode s)
  | .uuid u => [whole (Layout.uuid u)]
  | .grid g =>
    [whole (Layout.nullableUuid (some g.node)), whole (Encode.int64 g.counter.toBitVec)]
  | .message m => nested m

/-- The segments of an entry. -/
def ofEntry (e : Item × Item) : List Segment := ofItem nested e.1 ++ ofItem nested e.2

/-- The segments of a list. -/
def ofList : Option (List Item) → List Segment
  | none => null
  | some items => ofResult (Layout.length items.length) ++ items.flatMap (ofItem nested)

/-- The segments of a map. -/
def ofMap : Option (List (Item × Item)) → List Segment
  | none => null
  | some entries => ofResult (Layout.length entries.length) ++ entries.flatMap (ofEntry nested)

/-- The segments of a field. -/
def ofField : Field → List Segment
  | .primitive k x => [whole (k.encode x)]
  | .char c => ofResult (Encode.char c)
  | .text s => (s.map fun s => chunk (Utf8.encode s)).getD null
  | .bytes bs => (bs.map chunk).getD null
  | .uuid u => [whole (Layout.nullableUuid u)]
  | .grid (some g) => ofItem nested (.grid g)
  | .grid none => [whole (Layout.nullableUuid none)]
  | .bits s => ofList nested (s.map fun s => s.words.map Item.ofWord)
  | .value v => if v.isNull then null else [value fun m => m.marshalValue v]
  | .object t x => [value fun m => m.marshalErased t x]
  | .message (some msg) => nested msg
  | .message none => [whole [Message.nullType]]
  | .list items => ofList nested items
  | .map entries => ofMap nested entries
  | .stuck => [waiting]
  | .probe _ => [whole (Layout.probe 0 0)]
  | .skipped _ _ => []

/-- The segments of a message: its type byte, then its fields. -/
def ofBody (msg : Message) : List Segment :=
  whole [msg.type] :: msg.sent.flatMap (ofField nested)

end

/-- The segments of a message that may have messages nested in it to a depth of `levels`. -/
def ofMessage (config : Config) : (levels : Nat) → Message → List Segment
  | 0, msg => ofBody (fun _ => [failed (.messageNesting config.maxNestingDepth)]) msg
  | levels + 1, msg => ofBody (ofMessage config levels) msg

/-- What is written of segments that begin at an offset, if this marshaller is in force at each
offset: for a value, the length and the bytes of one encoding. A wait ends it. -/
def under (inForce : Nat → Marshaller) : (offset : Nat) → List Segment → Emission
  | _, [] => .empty
  | offset, whole bs :: rest =>
    (Emission.whole bs).andThen (under inForce (offset + bs.length) rest)
  | offset, stream bs :: rest =>
    Emission.andThen ⟨[.stream bs], none⟩ (under inForce (offset + bs.length) rest)
  | offset, value encoded :: rest =>
    let blob := Emission.staged (encoded (inForce offset))
    blob.andThen (under inForce (offset + blob.bytes.length) rest)
  | _, failed e :: _ => .failed e
  | _, waiting :: _ => .empty

/-- What is written of segments under one marshaller. -/
def emission (m : Marshaller) (segments : List Segment) : Emission := under (fun _ => m) 0 segments

end Segment

/-- The segments of a message under a configuration's limits. -/
def Message.segments (config : Config) (msg : Message) : List Segment :=
  Segment.ofMessage config (config.maxNestingDepth - 1) msg

namespace Segment

variable {f g : Nat → Marshaller} {m : Marshaller} {as bs segments : List Segment} {k l : Nat}

/-! ## Marshallers in force -/

/-- Only the marshallers from the offset on are asked. -/
theorem under_congr (h : ∀ i, f (k + i) = g (l + i)) (segments : List Segment) :
    under f k segments = under g l segments := by
  induction segments generalizing k l with
  | nil => rfl
  | cons x rest ih =>
    have hshift (n : Nat) : under f (k + n) rest = under g (l + n) rest :=
      ih fun i => by rw [Nat.add_assoc, Nat.add_assoc, h]
    cases x with
    | whole bs | stream bs => rw [under, under, hshift]
    | value encoded =>
      have hstart : f k = g l := h 0
      rw [under, under, hstart, hshift]
    | failed e | waiting => rfl

theorem under_const (m : Marshaller) (k : Nat) (segments : List Segment) :
    under (fun _ => m) k segments = emission m segments :=
  under_congr (f := fun _ => m) (g := fun _ => m) (fun _ => rfl) segments

theorem under_staged_append (r : Except Error Bytes) (k : Nat) (segments : List Segment) :
    under f k (staged r ++ segments) = (Emission.staged r).andThen
      (under f (k + (Emission.staged r).bytes.length) segments) := by
  cases r with
  | error e => rfl
  | ok bs =>
    rw [staged, Emission.staged, chunk, Emission.chunk]
    cases Layout.length bs.length with
    | error e => rfl
    | ok head =>
      simp [ofResult, Emission.ofResult, under, Emission.whole, Emission.andThen, Emission.bytes,
        Piece.bytes, Nat.add_assoc]

/-- A value stands for what the marshaller in force where it begins makes of it. -/
theorem under_value (encoded : Marshaller → Except Error Bytes) (h : f k = m) :
    under f k (value encoded :: segments) = under f k (staged (encoded m) ++ segments) := by
  rw [under_staged_append, under, h]

@[simp] theorem bytes_under_whole (bs : Bytes) :
    (under f k (whole bs :: segments)).bytes = bs ++ (under f (k + bs.length) segments).bytes := by
  rw [under, Emission.bytes_andThen rfl, Emission.bytes_whole]

@[simp] theorem failure_under_whole (bs : Bytes) :
    (under f k (whole bs :: segments)).failure = (under f (k + bs.length) segments).failure :=
  Emission.failure_andThen rfl

@[simp] theorem bytes_under_stream (bs : Bytes) :
    (under f k (stream bs :: segments)).bytes = bs ++ (under f (k + bs.length) segments).bytes := by
  rw [under, Emission.bytes_andThen rfl]
  simp [Emission.bytes, Piece.bytes]

@[simp] theorem failure_under_stream (bs : Bytes) :
    (under f k (stream bs :: segments)).failure = (under f (k + bs.length) segments).failure :=
  Emission.failure_andThen rfl

theorem waiting_notMem_staged (r : Except Error Bytes) : waiting ∉ staged r := by
  cases r with
  | error e => simp [staged]
  | ok bs =>
    rw [staged, chunk]
    cases Layout.length bs.length <;> simp [ofResult]

/-! ## One marshaller throughout -/

theorem emission_whole (m : Marshaller) (bs : Bytes) (rest : List Segment) :
    emission m (whole bs :: rest) = (Emission.whole bs).andThen (emission m rest) :=
  congrArg (Emission.whole bs).andThen (under_const m _ rest)

theorem emission_stream (m : Marshaller) (bs : Bytes) (rest : List Segment) :
    emission m (stream bs :: rest) = Emission.andThen ⟨[.stream bs], none⟩ (emission m rest) :=
  congrArg (Emission.andThen ⟨[.stream bs], none⟩) (under_const m _ rest)

theorem emission_value (m : Marshaller) (encoded : Marshaller → Except Error Bytes)
    (rest : List Segment) :
    emission m (value encoded :: rest) =
      (Emission.staged (encoded m)).andThen (emission m rest) :=
  congrArg (Emission.staged (encoded m)).andThen (under_const m _ rest)

theorem emission_append (hready : waiting ∉ as) :
    emission m (as ++ bs) = (emission m as).andThen (emission m bs) := by
  induction as with
  | nil => rfl
  | cons x as ih =>
    simp only [List.mem_cons, not_or] at hready
    have hrest := ih hready.2
    cases x with
    | whole _ | stream _ | value _ =>
      simp only [List.cons_append, emission_whole, emission_stream, emission_value, hrest,
        Emission.andThen_assoc]
    | failed e => rfl
    | waiting => exact absurd rfl hready.1

/-- Segments that are ready stand for an emission under a marshaller. -/
structure StandsFor (m : Marshaller) (segments : List Segment) (e : Emission) : Prop where
  ready : waiting ∉ segments
  emission_eq : emission m segments = e

namespace StandsFor

variable {a b : Emission}

theorem append (ha : StandsFor m as a) (hb : StandsFor m bs b) :
    StandsFor m (as ++ bs) (a.andThen b) where
  ready := by simpa using ⟨ha.ready, hb.ready⟩
  emission_eq := by rw [emission_append ha.ready, ha.emission_eq, hb.emission_eq]

theorem nil (m : Marshaller) : StandsFor m [] .empty := ⟨List.not_mem_nil, rfl⟩

theorem whole (m : Marshaller) (bs : Bytes) : StandsFor m [.whole bs] (.whole bs) :=
  ⟨by simp, (Emission.andThen_empty (.whole bs))⟩

theorem failed (m : Marshaller) (e : Error) : StandsFor m [.failed e] (.failed e) :=
  ⟨by simp, rfl⟩

theorem ofResult (m : Marshaller) (r : Except Error Bytes) :
    StandsFor m (ofResult r) (.ofResult r) := by
  cases r with
  | ok bs => exact whole m bs
  | error e => exact failed m e

theorem chunk (m : Marshaller) (bs : Bytes) : StandsFor m (chunk bs) (.chunk bs) :=
  (ofResult m _).append ⟨by simp, Emission.andThen_empty ⟨[.stream bs], none⟩⟩

theorem null (m : Marshaller) : StandsFor m null .null := whole m _

theorem value (m : Marshaller) (encoded : Marshaller → Except Error Bytes) :
    StandsFor m [.value encoded] (.staged (encoded m)) :=
  ⟨by simp, Emission.andThen_empty (.staged (encoded m))⟩

theorem flatMap {α : Type} {segments : α → List Segment} {part : α → Emission} {xs : List α}
    (h : ∀ x ∈ xs, StandsFor m (segments x) (part x)) :
    StandsFor m (xs.flatMap segments) (.each part xs) := by
  induction xs with
  | nil => exact nil m
  | cons x xs ih =>
    obtain ⟨hx, hxs⟩ := List.forall_mem_cons.mp h
    exact hx.append (ih hxs)

section

variable {nested : Message → List Segment} {part : Message → Emission}

theorem ofItem {x : Item} (h : ∀ msg ∈ x.messages, StandsFor m (nested msg) (part msg)) :
    StandsFor m (ofItem nested x) (.ofItem part x) := by
  cases x with
  | primitive k x => exact whole m _
  | char c => exact ofResult m _
  | text s => exact chunk m _
  | uuid u => exact whole m _
  | grid g => exact (whole m _).append (whole m _)
  | message msg => exact h msg (List.mem_singleton_self msg)

theorem ofList {items : Option (List Item)}
    (h : ∀ xs, items = some xs → ∀ x ∈ xs, ∀ msg ∈ x.messages,
      StandsFor m (nested msg) (part msg)) :
    StandsFor m (ofList nested items) (.ofList part items) := by
  cases items with
  | none => exact null m
  | some xs => exact (ofResult m _).append (flatMap fun x hx => ofItem (h xs rfl x hx))

theorem ofMap {entries : Option (List (Item × Item))}
    (h : ∀ es, entries = some es → ∀ e ∈ es, ∀ msg ∈ e.1.messages ++ e.2.messages,
      StandsFor m (nested msg) (part msg)) :
    StandsFor m (ofMap nested entries) (.ofMap part entries) := by
  cases entries with
  | none => exact null m
  | some es =>
    refine (ofResult m _).append (flatMap fun e he => ?_)
    exact (ofItem fun msg hmsg => h es rfl e he msg (List.mem_append_left _ hmsg)).append
      (ofItem fun msg hmsg => h es rfl e he msg (List.mem_append_right _ hmsg))

theorem ofField {x : Field} (hx : x.Plain)
    (h : ∀ msg ∈ x.messages, StandsFor m (nested msg) (part msg)) :
    StandsFor m (ofField nested x) (.ofField part m x) := by
  cases x with
  | primitive k x => exact whole m _
  | char c => exact ofResult m _
  | text s =>
    cases s with
    | none => exact null m
    | some s => exact chunk m _
  | bytes bs =>
    cases bs with
    | none => exact null m
    | some bs => exact chunk m bs
  | uuid u => exact whole m _
  | grid g =>
    cases g with
    | none => exact whole m _
    | some g => exact (whole m _).append (whole m _)
  | bits s =>
    refine ofList fun xs hxs y hy msg hmsg => ?_
    obtain ⟨s, -, rfl⟩ := Option.map_eq_some_iff.mp hxs
    obtain ⟨word, -, rfl⟩ := List.mem_map.mp hy
    cases hmsg
  | value v =>
    rw [Segment.ofField, Emission.ofField]
    split
    · exact null m
    · exact value m fun m => m.marshalValue v
  | object t x => exact value m fun m => m.marshalErased t x
  | message msg =>
    cases msg with
    | none => exact whole m _
    | some msg => exact h msg (List.mem_singleton_self msg)
  | list items =>
    refine ofList fun xs hxs y hy msg hmsg => h msg ?_
    subst hxs
    exact List.mem_flatMap.mpr ⟨y, hy, hmsg⟩
  | map entries =>
    refine ofMap fun es hes e he msg hmsg => h msg ?_
    subst hes
    exact List.mem_flatMap.mpr ⟨e, he, hmsg⟩
  | stuck => exact absurd rfl hx.ready
  | probe readings => exact absurd rfl (hx.steady readings)
  | skipped initial content => exact nil m

theorem ofBody {msg : Message} (hmsg : msg.Plain)
    (h : ∀ inner : Message, inner.Plain → StandsFor m (nested inner) (part inner)) :
    StandsFor m (ofBody nested msg) (.ofBody part m msg) := by
  obtain @⟨type, fields, hplain, hnested⟩ := hmsg
  refine (whole m [type]).append (flatMap fun x hx => ?_)
  have hx := Message.mem_fields_of_mem_sent hx
  exact ofField (hplain x hx) fun inner hinner => h inner (hnested x hx inner hinner)

end

theorem ofMessage (m : Marshaller) (levels : Nat) {msg : Message} (hmsg : msg.Plain) :
    StandsFor m (ofMessage m.config levels msg) (.ofMessage m levels msg) := by
  induction levels generalizing msg with
  | zero => exact ofBody hmsg fun _ _ => failed m _
  | succ levels ih => exact ofBody hmsg fun _ hinner => ih hinner

end StandsFor

end Segment

/-- With one marshaller throughout, the segments of a message stand for its emission. -/
theorem Message.Plain.standsFor {msg : Message} (h : msg.Plain) (m : Marshaller) :
    Segment.StandsFor m (msg.segments m.config) (m.emission msg) :=
  .ofMessage m _ h

end WireCodec
