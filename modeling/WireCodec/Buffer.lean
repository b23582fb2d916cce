import WireCodec.Cursor

/-!
A buffer that the caller supplies, with all its bytes: those that were written, and those behind
them, which were there before.
-/

namespace WireCodec

/-- A buffer, and how many of its bytes were written. -/
structure Buffer where
  bytes : Bytes
  position : Nat
  inside : position ≤ bytes.length
  deriving DecidableEq

namespace Buffer

/-- A buffer of zeros. -/
def ofCapacity (capacity : Nat) : Buffer := ⟨List.replicate capacity 0, 0, Nat.zero_le _⟩

instance : Inhabited Buffer := ⟨ofCapacity 0⟩

/-- The bytes that were written. -/
def written (b : Buffer) : Bytes := b.bytes.take b.position

/-- The room left. -/
def remaining (b : Buffer) : Nat := b.bytes.length - b.position

/-- Writes all of the bytes, or none where they do not fit, and tells which. -/
def putAll (b : Buffer) (bs : Bytes) : Bool × Buffer :=
  if h : bs.length ≤ b.remaining then
    (true, ⟨b.written ++ bs ++ b.bytes.drop (b.position + bs.length), b.position + bs.length, by
      rw [List.length_append, List.length_append, written, List.length_take_of_le b.inside]
      exact Nat.le_add_right _ _⟩)
  else (false, b)

/-- Writes a value of a fixed-width kind if it fits, and tells whether it did. -/
def put (b : Buffer) (k : Primitive) (x : k.Val) : Bool × Buffer := b.putAll (k.encode x)

/-- Writes as many of the bytes as fit, and tells how many these are. -/
def putPartial (b : Buffer) (bs : Bytes) : Nat × Buffer :=
  let n := min bs.length b.remaining
  (n, ⟨b.written ++ bs.take n ++ b.bytes.drop (b.position + n), b.position + n, by
    rw [List.length_append, List.length_append, written, List.length_take_of_le b.inside,
      List.length_take_of_le (Nat.min_le_left _ _)]
    exact Nat.le_add_right _ _⟩)

/-- The position in the buffer, without the bytes behind it. -/
def cursor (b : Buffer) : WriteCursor := ⟨b.bytes.length, b.written.toArray, by
  rw [List.size_toArray, written, List.length_take_of_le b.inside]
  exact b.inside⟩

end Buffer

end WireCodec
