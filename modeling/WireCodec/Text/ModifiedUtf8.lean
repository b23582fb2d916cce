import WireCodec.Error
import WireCodec.Text.Utf16

/-!
Modified UTF-8: each UTF-16 unit is written by itself, units below `0x80` other than zero as one
byte, zero and units below `0x800` as two, all others as three. No encoded byte is zero, and a
supplementary character takes six bytes.
-/

namespace WireCodec.ModifiedUtf8

open Utf16 (CodeUnit)

/-- The group of bytes of one unit. -/
def encodeUnit (u : CodeUnit) : Bytes :=
  let n := u.toNat
  if 0 < n ∧ n < 0x80 then [UInt8.ofNat n]
  else if n < 0x800 then [UInt8.ofNat (0xC0 + n / 0x40), UInt8.ofNat (0x80 + n % 0x40)]
  else [UInt8.ofNat (0xE0 + n / 0x1000), UInt8.ofNat (0x80 + n / 0x40 % 0x40),
    UInt8.ofNat (0x80 + n % 0x40)]

/-- The bytes of a text. -/
def encode (s : String) : Bytes := (Utf16.encode s.toList).flatMap encodeUnit

/-- The bytes that one unit takes. -/
def unitLength (u : CodeUnit) : Nat :=
  if 0 < u.toNat ∧ u.toNat < 0x80 then 1 else if u.toNat < 0x800 then 2 else 3

/-- The bytes that a text takes. -/
def encodedLength (s : String) : Nat :=
  (Utf16.encode s.toList).foldr (fun u n => unitLength u + n) 0

/-- The six bits of a continuation byte. -/
def continuation (offset : Nat) (b : UInt8) : Except Error Nat :=
  if b.toNat / 0x40 = 2 then .ok (b.toNat % 0x40) else .error (.continuationByte b offset)

/-- The units that the bytes from `offset` on stand for. Groups longer than needed are read. -/
def decodeUnits (offset : Nat) : Bytes → Except Error (List CodeUnit)
  | [] => .ok []
  | b :: bs =>
    let n := b.toNat
    if n < 0x80 then do
      let us ← decodeUnits (offset + 1) bs
      return BitVec.ofNat 16 n :: us
    else if n / 0x20 = 6 then
      match bs with
      | [] => .error .groupCutShort
      | c :: cs => do
        let x ← continuation (offset + 1) c
        let us ← decodeUnits (offset + 2) cs
        return BitVec.ofNat 16 (n % 0x20 * 0x40 + x) :: us
    else if n / 0x10 = 14 then
      match bs with
      | [] => .error .groupCutShort
      | c :: cs => do
        let x ← continuation (offset + 1) c
        match cs with
        | [] => .error .groupCutShort
        | d :: ds => do
          let y ← continuation (offset + 2) d
          let us ← decodeUnits (offset + 3) ds
          return BitVec.ofNat 16 (n % 0x10 * 0x1000 + x * 0x40 + y) :: us
    else .error (.leadByte b offset)

/-- The text that bytes stand for. -/
def decode (bs : Bytes) : Except Error String := do
  let us ← decodeUnits 0 bs
  match Utf16.decode us with
  | some cs => return String.ofList cs
  | none => throw .unpairedText

end WireCodec.ModifiedUtf8
