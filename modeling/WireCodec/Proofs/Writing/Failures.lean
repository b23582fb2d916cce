import WireCodec.Proofs.Failing
import WireCodec.Proofs.RoundTrip.Values
import WireCodec.Proofs.Writing.Emissions

/-!
What writing can fail with. The content of a value is refused, a host type has no binding, or
messages are nested too deep; nothing that is encoded fails for want of room.
-/

namespace WireCodec

/-- If an emission is ended by an error, the error has a property. -/
def Emission.FailsWith (P : Error → Prop) (a : Emission) : Prop := ∀ e, a.failure = some e → P e

/-! ## Values -/

/-- An error that says that some content has no bytes. -/
def Error.Unwritable (e : Error) : Prop := e.kind = .serialization

/-- An error that says that a value of a host type has no bytes. -/
def Error.Unmarshallable (e : Error) : Prop := e.Unwritable ∨ e.kind = .unknownType

namespace Encode

theorem failsWith_count (n : Nat) : FailsWith Error.Unwritable (count n) := by
  rw [count]
  split
  · exact .ok _
  · exact .error rfl

theorem failsWith_byteLength (n : Nat) : FailsWith Error.Unwritable (byteLength n) := by
  rw [byteLength]
  split
  · exact .ok _
  · exact .error rfl

theorem failsWith_text (s : String) : FailsWith Error.Unwritable (text s) :=
  (failsWith_byteLength _).bind fun _ => .ok _

theorem failsWith_char (c : Char) : FailsWith Error.Unwritable (char c) := by
  rw [char]
  split
  · exact .ok _
  · exact .error rfl

end Encode

open Encode

theorem Layout.failsWith_length (n : Nat) : FailsWith Error.Unwritable (Layout.length n) := by
  rw [length]
  split
  · exact .ok _
  · exact .error rfl

theorem StructuredObject.failsWith_encode (o : StructuredObject) :
    FailsWith Error.Unwritable o.encode := by
  obtain ⟨typeId, name, schemaId, payload⟩ := o
  cases name with
  | none => exact (failsWith_byteLength _).bind fun _ => .ok _
  | some name =>
    exact ((failsWith_text name).map _).bind fun _ => (failsWith_byteLength _).bind fun _ => .ok _

theorem EnumConstant.failsWith_encode (c : EnumConstant) : FailsWith Error.Unwritable c.encode := by
  obtain ⟨typeId, name, ordinal⟩ := c
  cases name with
  | none => exact .ok _
  | some name => exact ((failsWith_text name).map _).bind fun _ => .ok _

namespace Scalar

variable (s : Scalar)

theorem failsWith_encode (x : s.Val) : FailsWith Error.Unwritable (s.encode x) := by
  cases s with
  | text => exact failsWith_text x
  | uuid => exact .ok _
  | decimal => exact (failsWith_count _).bind fun _ => .ok _
  | timestamp => exact .ok _
  | constant => exact EnumConstant.failsWith_encode x

theorem failsWith_encodeElement (x : Option s.Val) :
    FailsWith Error.Unwritable (s.encodeElement x) := by
  cases x with
  | none => exact .ok _
  | some x => exact (s.failsWith_encode x).map _

theorem failsWith_encodeArray (xs : List (Option s.Val)) :
    FailsWith Error.Unwritable (s.encodeArray xs) := by
  rw [encodeArray, encodeElements_eq]
  exact (failsWith_count _).bind fun _ =>
    (FailsWith.each fun x _ => s.failsWith_encodeElement x).bind fun _ => .ok _

end Scalar

theorem Primitive.failsWith_encodeArray (k : Primitive) (xs : List k.Val) :
    FailsWith Error.Unwritable (k.encodeArray xs) :=
  (failsWith_count _).bind fun _ => .ok _

theorem Value.failsWith_encode (v : Value) : FailsWith Error.Unwritable v.encode := by
  induction v using induction_on_parts with
  | step v ih =>
    cases v with
    | null => exact .ok _
    | primitive k x => exact .ok _
    | primitiveArray k xs => exact (k.failsWith_encodeArray xs).map _
    | scalar s x => exact (s.failsWith_encode x).map _
    | scalarArray s xs => exact (s.failsWith_encodeArray xs).map _
    | objectArray xs =>
      rw [encode, encodes_eq]
      exact (failsWith_count _).bind fun _ => (FailsWith.each ih).bind fun _ => .ok _
    | collection flavor xs =>
      rw [encode, encodes_eq]
      exact (failsWith_count _).bind fun _ => (FailsWith.each ih).bind fun _ => .ok _
    | map flavor entries =>
      rw [encode, encodeEntries_eq]
      have hentries := forall_mem_parts_map.mp ih
      exact (failsWith_count _).bind fun _ => (FailsWith.each fun e he =>
        (hentries e he).1.bind fun _ => (hentries e he).2.bind fun _ => .ok _).bind fun _ => .ok _
    | mapEntry key value =>
      exact (ih key (by simp [parts])).bind fun _ =>
        (ih value (by simp [parts])).bind fun _ => .ok _
    | object o => exact o.failsWith_encode.map _

/-! ## Host values -/

namespace HostType

variable {t : HostType} {x : t.Val} {encoded : Except Error Bytes}

theorem failsWith_encodeContent (h : t.encodeContent x = some encoded) :
    FailsWith Error.Unwritable encoded := by
  have htext (s : String) : FailsWith Error.Unwritable (encodeContent.textElement s) :=
    (failsWith_text s).map _
  have hvalues (xs : List Value) : FailsWith Error.Unwritable (Encode.each Value.encode xs) :=
    .each fun v _ => v.failsWith_encode
  unfold encodeContent at h
  split at h
  case h_1 | h_4 => cases h; exact .ok _
  case h_2 => cases h; exact failsWith_char _
  case h_3 => cases h; exact Scalar.failsWith_encode _ _
  case h_5 => cases h; exact StructuredObject.failsWith_encode _
  case h_6 => cases h; exact Primitive.failsWith_encodeArray _ _
  case h_7 =>
    cases h
    exact (failsWith_count _).bind fun _ =>
      (FailsWith.each fun c _ => failsWith_char c).bind fun _ => .ok _
  case h_8 | h_9 => cases h; exact Scalar.failsWith_encodeArray _ _
  case h_10 | h_11 =>
    cases h
    exact (failsWith_count _).bind fun _ => (hvalues _).bind fun _ => .ok _
  case h_12 =>
    cases h
    exact (failsWith_count _).bind fun _ =>
      (FailsWith.each fun s _ => htext s).bind fun _ => .ok _
  case h_13 =>
    cases h
    exact (failsWith_count _).bind fun _ => (FailsWith.each fun e _ =>
      (htext e.1).bind fun _ => e.2.failsWith_encode.bind fun _ => .ok _).bind fun _ => .ok _
  case h_14 =>
    cases h
    exact (Value.failsWith_encode _).bind fun _ =>
      (Value.failsWith_encode _).bind fun _ => .ok _
  case h_15 => cases h

theorem failsWith_encodeFixed (h : t.encodeFixed x = some encoded) :
    FailsWith Error.Unwritable encoded := by
  unfold encodeFixed at h
  split at h
  · next hcontent =>
    cases h
    exact (failsWith_encodeContent hcontent).map _
  · cases h

theorem failsWith_encodePayload (payloads : PayloadCodec) (t : HostType) (x : t.Val) :
    FailsWith Error.Unwritable (t.encodePayload payloads x) := by
  rw [encodePayload]
  cases payloads.encode t x with
  | ok bs => exact .ok _
  | error cause => exact .error rfl

end HostType

namespace Marshaller

variable (m : Marshaller)

theorem failsWith_encodeAs (b : Binding) (t : HostType) (x : t.Val) :
    FailsWith Error.Unmarshallable (m.encodeAs b t x) := by
  have hunbound : Error.Unmarshallable (.unboundType t.describe) := .inr rfl
  cases b with
  | structured name =>
    have hobject (payload : Bytes) :=
      (StructuredObject.send m.types name payload).failsWith_encode
    exact ((t.failsWith_encodePayload m.payloads x).bind fun payload =>
      (hobject payload).bind fun _ => .ok _).mono fun _ => .inl
  | fixed tag =>
    rw [encodeAs]
    split
    · next h => exact (HostType.failsWith_encodeFixed h).mono fun _ => .inl
    · exact .error hunbound
  | constant =>
    unfold encodeAs
    dsimp only
    split
    · exact (Value.failsWith_encode _).mono fun _ => .inl
    · exact .error (.inr rfl)
  | constants =>
    unfold encodeAs
    dsimp only
    split
    · exact (Value.failsWith_encode _).mono fun _ => .inl
    · exact .error (.inr rfl)

theorem failsWith_marshalErased (t : HostType) (x : t.Val) :
    FailsWith Error.Unmarshallable (m.marshalErased t x) := by
  unfold marshalErased marshalAs
  split
  · exact (Value.failsWith_encode _).mono fun _ => .inl
  · split
    · exact m.failsWith_encodeAs _ _ _
    · exact .error (.inr rfl)

end Marshaller

/-! ## Messages -/

namespace Emission

variable {P : Error → Prop} {a b : Emission}

namespace FailsWith

theorem empty : FailsWith P empty := nofun

theorem whole (bs : Bytes) : FailsWith P (whole bs) := nofun

theorem failed {e : Error} (h : P e) : FailsWith P (failed e) := by
  intro e' he
  cases he
  exact h

theorem andThen (ha : FailsWith P a) (hb : FailsWith P b) : FailsWith P (a.andThen b) := by
  intro e he
  cases hfailure : a.failure with
  | none =>
    rw [failure_andThen hfailure] at he
    exact hb e he
  | some e' =>
    rw [andThen_of_failure hfailure] at he
    exact ha e he

theorem ofResult {x : Except Error Bytes} (h : WireCodec.FailsWith P x) :
    FailsWith P (ofResult x) := by
  cases x with
  | ok bs => exact whole bs
  | error e => exact failed (h e rfl)

theorem each {α : Type} {f : α → Emission} {xs : List α} (h : ∀ x ∈ xs, FailsWith P (f x)) :
    FailsWith P (each f xs) := by
  induction xs with
  | nil => exact empty
  | cons x xs ih =>
    obtain ⟨hx, hxs⟩ := List.forall_mem_cons.mp h
    exact hx.andThen (ih hxs)

theorem chunk {bs : Bytes} (h : ∀ e, Error.Unwritable e → P e) : FailsWith P (chunk bs) :=
  (ofResult ((Layout.failsWith_length _).mono h)).andThen nofun

end FailsWith

/-- An error that ends a message, where so many levels of messages may be nested. -/
def Ends (limit : Nat) (e : Error) : Prop := e.Unmarshallable ∨ e = .messageNesting limit

variable {limit : Nat} {nested : Message → Emission}

theorem ends_of_unwritable (e : Error) (h : e.Unwritable) : Ends limit e := .inl (.inl h)

theorem failsWith_ofItem (h : ∀ msg, FailsWith (Ends limit) (nested msg)) (x : Item) :
    FailsWith (Ends limit) (ofItem nested x) := by
  cases x with
  | primitive k x => exact .whole _
  | char c => exact .ofResult ((failsWith_char c).mono ends_of_unwritable)
  | text s => exact .chunk ends_of_unwritable
  | uuid u => exact .whole _
  | grid g => exact (FailsWith.whole _).andThen (.whole _)
  | message msg => exact h msg

theorem failsWith_ofList (h : ∀ msg, FailsWith (Ends limit) (nested msg))
    (items : Option (List Item)) : FailsWith (Ends limit) (ofList nested items) := by
  cases items with
  | none => exact .whole _
  | some xs =>
    exact (FailsWith.ofResult ((Layout.failsWith_length _).mono ends_of_unwritable)).andThen
      (.each fun x _ => failsWith_ofItem h x)

theorem failsWith_ofMap (h : ∀ msg, FailsWith (Ends limit) (nested msg))
    (entries : Option (List (Item × Item))) : FailsWith (Ends limit) (ofMap nested entries) := by
  cases entries with
  | none => exact .whole _
  | some es =>
    exact (FailsWith.ofResult ((Layout.failsWith_length _).mono ends_of_unwritable)).andThen
      (.each fun e _ => (failsWith_ofItem h e.1).andThen (failsWith_ofItem h e.2))

theorem failsWith_staged {encoded : Except Error Bytes}
    (h : WireCodec.FailsWith Error.Unmarshallable encoded) :
    FailsWith (Ends limit) (staged encoded) := by
  cases encoded with
  | ok bs => exact .chunk ends_of_unwritable
  | error e => exact .failed (.inl (h e rfl))

theorem failsWith_ofField (m : Marshaller) (h : ∀ msg, FailsWith (Ends limit) (nested msg))
    (x : Field) : FailsWith (Ends limit) (ofField nested m x) := by
  cases x with
  | primitive k x => exact .whole _
  | char c => exact .ofResult ((failsWith_char c).mono ends_of_unwritable)
  | text s =>
    cases s with
    | none => exact .whole _
    | some s => exact .chunk ends_of_unwritable
  | bytes bs =>
    cases bs with
    | none => exact .whole _
    | some bs => exact .chunk ends_of_unwritable
  | uuid u => exact .whole _
  | grid g =>
    cases g with
    | none => exact .whole _
    | some g => exact failsWith_ofItem h (.grid g)
  | bits s => exact failsWith_ofList h _
  | value v =>
    rw [ofField]
    split
    · exact .whole _
    · exact failsWith_staged (v.failsWith_encode.mono fun _ => .inl)
  | object t x => exact failsWith_staged (m.failsWith_marshalErased t x)
  | message msg =>
    cases msg with
    | none => exact .whole _
    | some msg => exact h msg
  | list items => exact failsWith_ofList h items
  | map entries => exact failsWith_ofMap h entries
  | stuck => exact .empty
  | probe readings => exact .whole _
  | skipped initial content => exact .empty

theorem failsWith_ofMessage (m : Marshaller) (levels : Nat) (msg : Message) :
    FailsWith (Ends m.config.maxNestingDepth) (ofMessage m levels msg) := by
  induction levels generalizing msg with
  | zero =>
    exact (FailsWith.whole _).andThen
      (.each fun x _ => failsWith_ofField m (fun _ => .failed (.inr rfl)) x)
  | succ levels ih => exact (FailsWith.whole _).andThen (.each fun x _ => failsWith_ofField m ih x)

end Emission

/-- A message fails only where a value in it cannot be marshalled or nesting ends. -/
theorem Marshaller.failsWith_emission (m : Marshaller) (msg : Message) :
    (m.emission msg).FailsWith (Emission.Ends m.config.maxNestingDepth) :=
  Emission.failsWith_ofMessage m _ msg

end WireCodec
