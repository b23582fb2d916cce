/-!
Finite sets of bit indices, kept as 64-bit words. The last word is never zero, so sets with the
same indices are equal as stored however they were built.
-/

namespace WireCodec

/-- A set of bit indices: bit `i` of word `w` is index `64 * w + i`. -/
structure BitSet where
  words : List (BitVec 64)
  trimmed : words.getLast? ≠ some 0
  deriving DecidableEq

namespace BitSet

/-- The words without the zeros at their end. -/
def trim (words : List (BitVec 64)) : List (BitVec 64) :=
  (words.reverse.dropWhile (· == 0)).reverse

theorem getLast?_trim (words : List (BitVec 64)) : (trim words).getLast? ≠ some 0 := by
  rw [trim, List.getLast?_reverse]
  intro h
  have := List.head?_dropWhile_not (· == (0 : BitVec 64)) words.reverse
  rw [h] at this
  simp at this

/-- The set whose words these are. -/
def ofWords (words : List (BitVec 64)) : BitSet := ⟨trim words, getLast?_trim words⟩

/-- The set without indices. -/
def empty : BitSet := ⟨[], by simp⟩

instance : Inhabited BitSet := ⟨empty⟩

/-- Whether an index is in the set. -/
def contains (s : BitSet) (i : Nat) : Bool :=
  (s.words[i / 64]?).any (·.getLsbD (i % 64))

/-- Words with the word at `w` changed by `f`, and zero words up to it where there were none. -/
def modifyWord (f : BitVec 64 → BitVec 64) : Nat → List (BitVec 64) → List (BitVec 64)
  | 0, [] => [f 0]
  | 0, x :: xs => f x :: xs
  | w + 1, [] => 0 :: modifyWord f w []
  | w + 1, x :: xs => x :: modifyWord f w xs

/-- The word with nothing but bit `i` set. -/
def mask (i : Nat) : BitVec 64 := BitVec.twoPow 64 i

/-- The set with an index added. -/
def insert (s : BitSet) (i : Nat) : BitSet :=
  ofWords (modifyWord (· ||| mask (i % 64)) (i / 64) s.words)

/-- The set with an index removed. -/
def erase (s : BitSet) (i : Nat) : BitSet :=
  if i / 64 < s.words.length then ofWords (s.words.modify (i / 64) (· &&& ~~~ mask (i % 64)))
  else s

/-- The set with all of these indices added. -/
def insertAll (s : BitSet) (indices : List Nat) : BitSet := indices.foldl insert s

/-- The set of these indices. -/
def ofList (indices : List Nat) : BitSet := empty.insertAll indices

/-- The indices of the bits of a word. -/
def wordIndices (x : BitVec 64) : List Nat := (List.range 64).filter x.getLsbD

/-- The indices, ascending. -/
def toList (s : BitSet) : List Nat :=
  s.words.zipIdx.flatMap fun (x, w) => (wordIndices x).map (w * 64 + ·)

/-- The number of indices. -/
def size (s : BitSet) : Nat := s.words.foldr (fun x n => (wordIndices x).length + n) 0

/-- Whether no index is in the set. -/
def isEmpty (s : BitSet) : Bool := s.words.isEmpty

end BitSet

end WireCodec
