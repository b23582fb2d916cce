import WireCodec.Bytes.LittleEndian

/-!
UTF-8 as core's strings hold it: a text is its bytes, and bytes are text when they are valid. Of
bytes that are no text, `Utf8.fault` tells where they stop being one.
-/

namespace WireCodec.Utf8

/-- The bytes of a text. -/
def encode (s : String) : Bytes := s.toUTF8.data.toList

/-- The text that valid bytes are. -/
def decode? (bs : Bytes) : Option String := String.fromUTF8? ⟨bs.toArray⟩

/-- Where bytes stop being text. -/
structure Fault where
  /-- the place of the first byte that belongs to no character -/
  index : Nat
  /-- the number of bytes from there on that begin a character which the next byte does not go on
  with, at least one; none if the bytes only end too early -/
  length : Option Nat
  deriving DecidableEq, Repr

/-- What a fault is called in messages. -/
def Fault.text (f : Fault) : String :=
  match f.length with
  | some n => s!"invalid utf-8 sequence of {n} bytes from index {f.index}"
  | none => s!"incomplete utf-8 byte sequence from index {f.index}"

/-- A range of bytes. -/
abbrev Range := UInt8 × UInt8

/-- The ranges of the bytes that follow the first byte of a character, if it is one. The second byte
is in a range of its own where the others would spell a character in more bytes than it needs, a
surrogate, or what lies behind the last character. -/
def following (first : UInt8) : Option (List Range) :=
  let any : Range := (0x80, 0xBF)
  if first < 0x80 then some []
  else if first < 0xC2 then none
  else if first < 0xE0 then some [any]
  else if first < 0xF0 then
    some [(if first = 0xE0 then 0xA0 else 0x80, if first = 0xED then 0x9F else 0xBF), any]
  else if first < 0xF5 then
    some [(if first = 0xF0 then 0x90 else 0x80, if first = 0xF4 then 0x8F else 0xBF), any, any]
  else none

/-- The first fault of the bytes from `index` on, if there is one. They go on with the character
that begins at `start`, whose next bytes have to be in the ranges `due`. -/
def faultFrom (index start : Nat) : (due : List Range) → Bytes → Option Fault
  | [], [] => none
  | _ :: _, [] => some ⟨start, none⟩
  | [], b :: bs =>
    match following b with
    | some due => faultFrom (index + 1) index due bs
    | none => some ⟨index, some 1⟩
  | range :: due, b :: bs =>
    if range.1 ≤ b ∧ b ≤ range.2 then faultFrom (index + 1) start due bs
    else some ⟨start, some (index - start)⟩

/-- The first fault of bytes, if there is one. -/
def fault? (bs : Bytes) : Option Fault := faultFrom 0 0 [] bs

/-- The first fault of bytes that are no text. -/
def fault (bs : Bytes) : Fault := (fault? bs).getD ⟨bs.length, none⟩

end WireCodec.Utf8
