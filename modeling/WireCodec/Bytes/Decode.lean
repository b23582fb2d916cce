import WireCodec.Error
import WireCodec.Primitive
import WireCodec.Text.ModifiedUtf8

/-!
Reading from a standalone byte string. A decoder takes what it needs from the front and leaves the
rest; where the input ends early it says how much is missing.
-/

namespace WireCodec

/-- Whether a byte string has fewer than `n` bytes. -/
def Bytes.shorterThan : Bytes → Nat → Bool
  | _, 0 => false
  | [], _ + 1 => true
  | _ :: bs, n + 1 => shorterThan bs n

theorem Bytes.shorterThan_eq (bs : Bytes) (n : Nat) :
    bs.shorterThan n = decide (bs.length < n) := by
  induction n generalizing bs with
  | zero => simp [Bytes.shorterThan]
  | succ n ih => cases bs <;> simp [Bytes.shorterThan, ih]

/-- A reader of values from the front of a byte string. -/
abbrev Decode := StateT Bytes (Except Error)

namespace Decode

/-- Reads everything a decoder asks for from `bs`. -/
def runOn {α : Type} (d : Decode α) (bs : Bytes) : Except Error (α × Bytes) := StateT.run d bs

/-- The next `n` bytes. -/
def take (n : Nat) : Decode Bytes := fun bs =>
  if bs.shorterThan n then .error (.truncated n bs.length) else .ok (bs.splitAt n)

/-- Succeeds without reading if at least `n` bytes are left. -/
def expect (n : Nat) : Decode Unit := fun bs =>
  if bs.shorterThan n then .error (.truncated n bs.length) else .ok ((), bs)

/-- The next value of a fixed-width kind. -/
def primitive (k : Primitive) : Decode k.Val := k.decode <$> take k.size

/-- The next byte. -/
def byte : Decode UInt8 := (fun bs => UInt8.ofNat (LittleEndian.ofBytes bs)) <$> take 1

/-- The next 8-bit signed integer. -/
def int8 : Decode Int := (fun x : BitVec 8 => x.toInt) <$> primitive (.int .w8 .signed)

/-- The next 32-bit signed integer. -/
def int32 : Decode Int32 := (fun x : BitVec 32 => Int32.ofBitVec x) <$> primitive (.int .w32 .signed)

/-- The next 64-bit integer. -/
def int64 : Decode (BitVec 64) := primitive (.int .w64 .signed)

/-- A length that is not negative. -/
def size : Decode Nat := do
  let n ← int32
  if n.toInt < 0 then throw (.negativeLength n.toInt)
  return n.toInt.toNat

/-- A length up to `limit`. -/
def length (limit : Nat) : Decode Nat := do
  let n ← size
  if limit < n then throw (.lengthOverLimit n limit)
  return n

/-- A text: the length of its bytes, then the bytes. -/
def text : Decode String := do
  let n ← int32
  if n.toInt < 0 then throw (.negativeTextLength n.toInt)
  let bs ← take n.toInt.toNat
  match ModifiedUtf8.decode bs with
  | .ok s => return s
  | .error e => throw e

/-- `n` values one after the other. -/
def many {α : Type} (d : Decode α) : Nat → Decode (List α)
  | 0 => return []
  | n + 1 => do
    let x ← d
    let xs ← many d n
    return x :: xs

end Decode

end WireCodec
