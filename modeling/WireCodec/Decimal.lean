import WireCodec.Error

/-!
Decimal numbers: an integer of at most 96 bits divided by a power of ten. On the wire a decimal is
its scale, then its magnitude in as few bytes as hold it together with a sign bit.
-/

namespace WireCodec

/-- A decimal number `± magnitude / 10 ^ scale`. Trailing zeros count: `1.00` is not `1` as
stored, although the numbers are equal. -/
structure Decimal where
  negative : Bool
  magnitude : BitVec 96
  scale : Fin 29
  deriving DecidableEq, Repr

namespace Decimal

/-- The signed integer that is divided. -/
def mantissa (d : Decimal) : Int := if d.negative then -d.magnitude.toNat else d.magnitude.toNat

/-- Whether two decimals are the same number. -/
def same (a b : Decimal) : Bool :=
  a.mantissa * Int.pow 10 (28 - a.scale.val) == b.mantissa * Int.pow 10 (28 - b.scale.val)

/-- The decimal with this mantissa and scale, if they are in range. -/
def ofMantissa? (mantissa : Int) (scale : Nat) : Option Decimal :=
  if h : mantissa.natAbs < 2 ^ 96 ∧ scale < 29 then
    some ⟨mantissa < 0, BitVec.ofNatLT mantissa.natAbs h.1, ⟨scale, h.2⟩⟩
  else none

/-- The bytes of a natural, most significant first: none for zero. -/
def bigEndian : Nat → Nat → Bytes
  | 0, _ => []
  | n + 1, v => if v = 0 then [] else bigEndian n (v / 256) ++ [UInt8.ofNat (v % 256)]

/-- The magnitude bytes of a decimal. The top bit of the first one is the sign, and a zero byte is
put in front where the magnitude itself needs that bit; zero has no sign. -/
def magnitudeBytes (d : Decimal) : Bytes :=
  match bigEndian 12 d.magnitude.toNat with
  | [] => [0]
  | b :: bs =>
    let room := if b.toNat < 0x80 then b :: bs else 0 :: b :: bs
    if d.negative then
      match room with
      | [] => []
      | first :: rest => (first ||| 0x80) :: rest
    else room

/-- Appends bytes to a magnitude. A magnitude that has outgrown 120 bits takes no further byte. -/
def accumulate (length : Nat) : Nat → Nat → Bytes → Except Error Nat
  | _, m, [] => .ok m
  | i, m, b :: bs =>
    if m < 1 <<< 120 then accumulate length (i + 1) (m * 256 + b.toNat) bs
    else .error (.magnitudeOverflowAt length i)

/-- The decimal with this scale and these magnitude bytes. -/
def ofWire (scale : Int) (bytes : Bytes) : Except Error Decimal :=
  match bytes with
  | [] => .error .emptyMagnitude
  | first :: rest => do
    let magnitude ← accumulate bytes.length 0 0 ((first &&& 0x7F) :: rest)
    if scale < 0 then throw (.negativeScale scale)
    if 1 <<< 127 ≤ magnitude then throw .magnitudeOverflow
    let mantissa : Int := if first.toNat < 0x80 then magnitude else -magnitude
    match ofMantissa? mantissa scale.toNat with
    | some d => return d
    | none => throw .decimalRange

end Decimal

end WireCodec
