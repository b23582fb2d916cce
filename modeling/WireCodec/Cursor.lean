import WireCodec.Primitive

/-!
Positions in buffers that the caller supplies. A value that does not fit leaves a cursor where it
was; only byte strings may be written and read in part.
-/

namespace WireCodec

/-- A position in a buffer that is being filled: what was written, and how much there is room for. -/
structure WriteCursor where
  capacity : Nat
  written : Array UInt8
  fits : written.size ≤ capacity

namespace WriteCursor

/-- The start of a buffer. -/
def ofCapacity (capacity : Nat) : WriteCursor := ⟨capacity, #[], Nat.zero_le _⟩

instance : Inhabited WriteCursor := ⟨ofCapacity 0⟩

/-- The number of bytes written. -/
def position (c : WriteCursor) : Nat := c.written.size

/-- The room left. -/
def remaining (c : WriteCursor) : Nat := c.capacity - c.written.size

private theorem size_append (written : Array UInt8) (bs : Bytes) :
    (written ++ bs).size = written.size + bs.length := by
  rw [← Array.length_toList]
  simp

/-- Writes all of the bytes, or none where they do not fit. -/
def putAll? (c : WriteCursor) (bs : Bytes) : Option WriteCursor :=
  if h : c.written.size + bs.length ≤ c.capacity then
    some ⟨c.capacity, c.written ++ bs, size_append _ _ ▸ h⟩
  else none

/-- Writes a value of a fixed-width kind if it fits. -/
def put? (c : WriteCursor) (k : Primitive) (x : k.Val) : Option WriteCursor :=
  c.putAll? (k.encode x)

/-- Writes as many of the bytes as fit. -/
def putPartial (c : WriteCursor) (bs : Bytes) : WriteCursor :=
  ⟨c.capacity, c.written ++ bs.take c.remaining, by
    have := c.fits
    rw [size_append, List.length_take, remaining]
    omega⟩

end WriteCursor

/-- A position in bytes that are being read: how far it is from the start, and what lies ahead. -/
structure ReadCursor where
  position : Nat
  rest : Bytes
  deriving DecidableEq, Inhabited

namespace ReadCursor

/-- The start of the bytes. -/
def ofBytes (bs : Bytes) : ReadCursor := ⟨0, bs⟩

/-- The number of unread bytes. -/
def remaining (c : ReadCursor) : Nat := c.rest.length

/-- Passes over `n` bytes, or over all that are left. -/
def advance (c : ReadCursor) (n : Nat) : ReadCursor :=
  ⟨c.position + min n c.rest.length, c.rest.drop n⟩

/-- The first `n` bytes and what follows them, where there are so many. -/
def splitExact? : Nat → Bytes → Option (Bytes × Bytes)
  | 0, bs => some ([], bs)
  | _ + 1, [] => none
  | n + 1, b :: bs => (splitExact? n bs).map fun (taken, rest) => (b :: taken, rest)

/-- Reads exactly `n` bytes if they are there. -/
def takeExact? (c : ReadCursor) (n : Nat) : Option (Bytes × ReadCursor) :=
  (splitExact? n c.rest).map fun (taken, rest) => (taken, ⟨c.position + n, rest⟩)

/-- Reads a value of a fixed-width kind if all of it is there. -/
def take? (c : ReadCursor) (k : Primitive) : Option (k.Val × ReadCursor) :=
  (c.takeExact? k.size).map fun (bs, c) => (k.decode bs, c)

/-- Reads up to `n` bytes. -/
def takePartial (c : ReadCursor) (n : Nat) : Bytes × ReadCursor :=
  let taken := c.rest.take n
  (taken, ⟨c.position + taken.length, c.rest.drop n⟩)

end ReadCursor

end WireCodec
