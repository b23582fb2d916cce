/-!
Hexadecimal text of naturals, padded with zeros to a least width.
-/

namespace WireCodec.Hex

/-- The letters' case. -/
inductive Case where
  | lower | upper
  deriving DecidableEq, Repr

/-- The digit for a value below 16. -/
def digit (c : Case) (n : Nat) : Char :=
  if n < 10 then Char.ofNat (48 + n)
  else Char.ofNat ((match c with | .lower => 97 | .upper => 65) + (n - 10))

/-- The last `width` hexadecimal digits of `v`, the most significant first. -/
def padded (c : Case) : Nat → Nat → List Char
  | 0, _ => []
  | width + 1, v => padded c width (v / 16) ++ [digit c (v % 16)]

/-- Hexadecimal digits that `v` needs, at least `width`. -/
def widthOf (width v : Nat) : Nat := max width (Nat.log2 v / 4 + 1)

/-- The hexadecimal text of `v` with at least `width` digits. -/
def text (c : Case) (width v : Nat) : String :=
  String.ofList (padded c (widthOf width v) v)

/-- The value of a digit in either case. -/
def value? (c : Char) : Option Nat :=
  let n := c.toNat
  if 48 ≤ n ∧ n ≤ 57 then some (n - 48)
  else if 97 ≤ n ∧ n ≤ 102 then some (n - 87)
  else if 65 ≤ n ∧ n ≤ 70 then some (n - 55)
  else none

/-- The natural that digits stand for. -/
def number? (cs : List Char) : Option Nat :=
  cs.foldlM (fun n c => (value? c).map (n * 16 + ·)) 0

/-- The bytes that digits stand for, two digits each. -/
def bytes? : List Char → Option (List UInt8)
  | [] => some []
  | [_] => none
  | a :: b :: rest => do
    let high ← value? a
    let low ← value? b
    let bs ← bytes? rest
    return UInt8.ofNat (high * 16 + low) :: bs

/-- The digits of bytes, two each, in lower case. -/
def ofBytes (bs : List UInt8) : String :=
  String.ofList (bs.flatMap fun b => padded .lower 2 b.toNat)

end WireCodec.Hex
