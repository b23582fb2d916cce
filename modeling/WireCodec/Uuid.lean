import WireCodec.Bytes.LittleEndian
import WireCodec.Text.Hex

/-!
Universally unique ids, and the one byte layout that values and message fields share: the more
significant half first, each half least significant byte first.
-/

namespace WireCodec

/-- A 128-bit id. -/
structure Uuid where
  bits : BitVec 128
  deriving DecidableEq, Repr, Inhabited

namespace Uuid

/-- The id of all zeros. -/
def nil : Uuid := ⟨0⟩

/-- The id made of two halves. -/
def ofHalves (high low : BitVec 64) : Uuid := ⟨high ++ low⟩

/-- The more significant half. -/
def high (u : Uuid) : BitVec 64 := u.bits.extractLsb' 64 64

/-- The less significant half. -/
def low (u : Uuid) : BitVec 64 := u.bits.extractLsb' 0 64

/-- The sixteen bytes, most significant first. -/
def octets (u : Uuid) : Bytes := (LittleEndian.toBytes 16 u.bits.toNat).reverse

/-- The id with the given bytes, most significant first. -/
def ofOctets (bs : Bytes) : Uuid := ⟨BitVec.ofNat 128 (LittleEndian.ofBytes bs.reverse)⟩

/-- The text of an id: lower-case digits in groups of 8, 4, 4, 4 and 12. -/
def text (u : Uuid) : String :=
  let digits := Hex.padded .lower 32 u.bits.toNat
  let group (start count : Nat) := String.ofList ((digits.drop start).take count)
  "-".intercalate [group 0 8, group 8 4, group 12 4, group 16 4, group 20 12]

/-- The id that a text stands for: 32 digits, however they are grouped. -/
def ofText? (s : String) : Option Uuid :=
  let digits := s.toList.filter (· != '-')
  if digits.length = 32 then (Hex.number? digits).map fun n => ⟨BitVec.ofNat 128 n⟩ else none

/-- Ids are ordered as numbers, which is the order of their octets. -/
def compare (a b : Uuid) : Ordering := Ord.compare a.bits.toNat b.bits.toNat

end Uuid

end WireCodec
