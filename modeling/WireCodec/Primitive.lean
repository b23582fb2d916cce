import WireCodec.Bytes.LittleEndian

/-!
Fixed-width values: truth values, UTF-16 units, integers of four widths and both signs, and the
two float formats. A `Form` is what the wire distinguishes; a `Primitive` also knows the sign of
an integer, which the wire does not carry. `Primitive.decode_encode` says that a value is read
back from its own bytes.
-/

namespace WireCodec

/-- Integer widths. -/
inductive Width where
  | w8 | w16 | w32 | w64
  deriving DecidableEq, Repr, Inhabited

/-- Bytes of an integer of this width. -/
def Width.size : Width → Nat
  | .w8 => 1
  | .w16 => 2
  | .w32 => 4
  | .w64 => 8

/-- The bits of an integer of this width. -/
abbrev Width.Word (w : Width) : Type := BitVec (8 * w.size)

/-- How the bits of an integer are read as a number. -/
inductive Sign where
  | signed | unsigned
  deriving DecidableEq, Repr, Inhabited

/-- The number that the bits of a word denote under a sign. -/
def Sign.read (s : Sign) {n : Nat} (x : BitVec n) : Int :=
  match s with
  | .signed => x.toInt
  | .unsigned => x.toNat

/-- The fixed-width forms that the wire tells apart. -/
inductive Form where
  | bool
  | unit
  | int (w : Width)
  | float
  | double
  deriving DecidableEq, Repr, Inhabited

/-- Bytes of a value of this form. -/
def Form.size : Form → Nat
  | .bool => 1
  | .unit => 2
  | .int w => w.size
  | .float => 4
  | .double => 8

/-- The fixed-width kinds of values. Floats are kept as their bits. -/
inductive Primitive where
  | bool
  | unit
  | int (w : Width) (s : Sign)
  | float
  | double
  deriving DecidableEq, Repr, Inhabited

namespace Primitive

/-- The form of a kind on the wire, where both signs of an integer look alike. -/
def form : Primitive → Form
  | bool => .bool
  | unit => .unit
  | int w _ => .int w
  | float => .float
  | double => .double

/-- Bytes of a value of this kind. -/
def size (k : Primitive) : Nat := k.form.size

/-- The values of a kind. -/
@[reducible] def Val : Primitive → Type
  | bool => Bool
  | unit => BitVec 16
  | int w _ => w.Word
  | float => BitVec 32
  | double => BitVec 64

/-- The short name of a kind. -/
def name : Primitive → String
  | bool => "bool"
  | unit => "char"
  | int .w8 .signed => "i8"
  | int .w8 .unsigned => "u8"
  | int .w16 .signed => "i16"
  | int .w16 .unsigned => "u16"
  | int .w32 .signed => "i32"
  | int .w32 .unsigned => "u32"
  | int .w64 .signed => "i64"
  | int .w64 .unsigned => "u64"
  | float => "f32"
  | double => "f64"

/-- The value of a kind whose bits are all zero. -/
def zero : (k : Primitive) → k.Val
  | bool => false
  | unit => 0
  | int _ _ => 0
  | float => 0
  | double => 0

/-- The bytes of a value, least significant first. -/
def encode : (k : Primitive) → k.Val → Bytes
  | bool, b => [if b then 1 else 0]
  | unit, x => LittleEndian.toBytes 2 x.toNat
  | int w _, x => LittleEndian.toBytes w.size x.toNat
  | float, x => LittleEndian.toBytes 4 x.toNat
  | double, x => LittleEndian.toBytes 8 x.toNat

/-- The value that the bytes of one value stand for. Any nonzero truth value is true. -/
def decode : (k : Primitive) → Bytes → k.Val
  | bool, bs => LittleEndian.ofBytes bs != 0
  | unit, bs => BitVec.ofNat 16 (LittleEndian.ofBytes bs)
  | int w _, bs => BitVec.ofNat (8 * w.size) (LittleEndian.ofBytes bs)
  | float, bs => BitVec.ofNat 32 (LittleEndian.ofBytes bs)
  | double, bs => BitVec.ofNat 64 (LittleEndian.ofBytes bs)

@[simp] theorem length_encode (k : Primitive) (x : k.Val) : (k.encode x).length = k.size := by
  cases k <;> simp [encode, size, form, Form.size]

private theorem ofNat_ofBytes_toBytes (n : Nat) (x : BitVec (8 * n)) :
    BitVec.ofNat (8 * n) (LittleEndian.ofBytes (LittleEndian.toBytes n x.toNat)) = x := by
  have hx : x.toNat < Nat.pow 256 n := by
    have := x.isLt
    rwa [Nat.pow_mul] at this
  rw [LittleEndian.ofBytes_toBytes, Nat.mod_eq_of_lt hx, BitVec.ofNat_toNat]
  simp

theorem decode_encode (k : Primitive) (x : k.Val) : k.decode (k.encode x) = x := by
  match k, x with
  | bool, true => rfl
  | bool, false => rfl
  | unit, x => exact ofNat_ofBytes_toBytes 2 x
  | int w _, x => exact ofNat_ofBytes_toBytes w.size x
  | float, x => exact ofNat_ofBytes_toBytes 4 x
  | double, x => exact ofNat_ofBytes_toBytes 8 x

/-- Whether two values are equal as numbers: floats compare as IEEE 754 says, so a float that is
no number differs from itself and the two zeros are equal. -/
def same : (k : Primitive) → k.Val → k.Val → Bool
  | bool, x, y => x == y
  | unit, x, y => x == y
  | int _ _, x, y => x == y
  | float, x, y => ieee 23 8 x y
  | double, x, y => ieee 52 11 x y
where
  /-- IEEE equality of two floats given by their bits. -/
  ieee (fraction exponent : Nat) {n : Nat} (x y : BitVec n) : Bool :=
    let magnitude (z : BitVec n) := z.toNat % (1 <<< (fraction + exponent))
    let infinity := ((1 <<< exponent) - 1) <<< fraction
    magnitude x ≤ infinity && magnitude y ≤ infinity &&
      (x == y || (magnitude x == 0 && magnitude y == 0))

end Primitive

end WireCodec
