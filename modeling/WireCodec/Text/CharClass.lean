/-!
Classes of characters, kept as ranges of code points.
-/

namespace WireCodec

/-- A class of characters: the first and the last code point of each of its ranges. -/
structure CharClass where
  ranges : List (Nat × Nat)

namespace CharClass

/-- Whether a character belongs to a class. -/
def contains (k : CharClass) (c : Char) : Bool :=
  k.ranges.any fun (first, last) => first ≤ c.toNat && c.toNat ≤ last

end CharClass

end WireCodec
