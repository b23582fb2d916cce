import WireCodec.Error
import WireCodec.Primitive
import WireCodec.Text.ModifiedUtf8

/-!
The bytes of the small parts that values are made of, and the growing output that values are
appended to.
-/

namespace WireCodec

namespace Encode

/-- The bytes of a 32-bit integer. -/
def int32 (x : Int32) : Bytes := LittleEndian.toBytes 4 x.toBitVec.toNat

/-- The bytes of a 64-bit word. -/
def int64 (x : BitVec 64) : Bytes := LittleEndian.toBytes 8 x.toNat

/-- The largest length that a 32-bit length can tell. -/
def maxLength : Nat := 2147483647

/-- The number of elements that follow. -/
def count (n : Nat) : Except Error Bytes :=
  if n ≤ maxLength then .ok (LittleEndian.toBytes 4 n) else .error (.elementsOverCount n)

/-- The number of bytes that follow. -/
def byteLength (n : Nat) : Except Error Bytes :=
  if n ≤ maxLength then .ok (LittleEndian.toBytes 4 n) else .error (.bytesOverLength n)

/-- A text: the length of its bytes, then the bytes. -/
def text (s : String) : Except Error Bytes := do
  let bs := ModifiedUtf8.encode s
  let n ← byteLength bs.length
  return n ++ bs

/-- A character as one UTF-16 unit. -/
def char (c : Char) : Except Error Bytes :=
  match Utf16.unitOfChar? c with
  | some u => .ok (Primitive.encode .unit u)
  | none => .error (.supplementaryCharacter c.toNat)

/-- The bytes of all elements one after the other. -/
def each {α : Type} (f : α → Except Error Bytes) : List α → Except Error Bytes
  | [] => .ok []
  | x :: xs => do
    let b ← f x
    let bs ← each f xs
    return b ++ bs

/-! ## When an encoding succeeds -/

variable {α β : Type} {x : Except Error α} {b : β}

theorem bind_eq_ok {f : α → Except Error β} : x >>= f = .ok b ↔ ∃ a, x = .ok a ∧ f a = .ok b := by
  cases x <;> simp [bind, Except.bind]

theorem map_eq_ok {f : α → β} : f <$> x = .ok b ↔ ∃ a, x = .ok a ∧ f a = b := by
  cases x <;> simp [Functor.map, Except.map]

theorem pure_eq_ok {a : β} : (pure a : Except Error β) = .ok b ↔ a = b := by simp [pure, Except.pure]

theorem count_eq_ok {n : Nat} {bs : Bytes} :
    count n = .ok bs ↔ n ≤ maxLength ∧ LittleEndian.toBytes 4 n = bs := by
  rw [count]
  split <;> simp [*]

theorem byteLength_eq_ok {n : Nat} {bs : Bytes} :
    byteLength n = .ok bs ↔ n ≤ maxLength ∧ LittleEndian.toBytes 4 n = bs := by
  rw [byteLength]
  split <;> simp [*]

theorem text_eq_ok {s : String} {bs : Bytes} :
    text s = .ok bs ↔ (ModifiedUtf8.encode s).length ≤ maxLength ∧
      LittleEndian.toBytes 4 (ModifiedUtf8.encode s).length ++ ModifiedUtf8.encode s = bs := by
  simp only [text, bind_eq_ok, byteLength_eq_ok, pure_eq_ok]
  constructor
  · rintro ⟨_, ⟨h, rfl⟩, rfl⟩
    exact ⟨h, rfl⟩
  · rintro ⟨h, rfl⟩
    exact ⟨_, ⟨h, rfl⟩, rfl⟩

end Encode

/-- An output that encoded values are appended to. -/
structure Output where
  bytes : Array UInt8
  deriving DecidableEq, Inhabited

namespace Output

/-- The output that nothing was written to. -/
def empty : Output := ⟨#[]⟩

/-- The number of bytes written. -/
def size (o : Output) : Nat := o.bytes.size

/-- Whether nothing was written. -/
def isEmpty (o : Output) : Bool := o.bytes.isEmpty

/-- Appends bytes. -/
def append (o : Output) (bs : Bytes) : Output := ⟨o.bytes ++ bs⟩

/-- Appends a value of a fixed-width kind. -/
def primitive (o : Output) (k : Primitive) (x : k.Val) : Output := o.append (k.encode x)

/-- Appends an encoding; where there is none, the output stays as it is. -/
def appendResult (o : Output) : Except Error Bytes → Output × Except Error Unit
  | .ok bs => (o.append bs, .ok ())
  | .error e => (o, .error e)

/-- Appends a text. -/
def text (o : Output) (s : String) : Output × Except Error Unit := o.appendResult (Encode.text s)

/-- Drops everything after the first `n` bytes. -/
def truncate (o : Output) (n : Nat) : Output := ⟨o.bytes.take n⟩

/-- Drops everything. -/
def clear (_ : Output) : Output := empty

end Output

end WireCodec
