import WireCodec.Error
import WireCodec.Frame.Message

/-!
The units that messages are framed in: lengths, null forms, ids and characters.
-/

namespace WireCodec.Layout

/-- The length in front of a byte string, a list or a map. -/
def length (n : Nat) : Except Error Bytes :=
  if n ≤ Encode.maxLength then .ok (LittleEndian.toBytes 4 n) else .error (.prefixOverflow n)

/-- The length that stands for no byte string, list or map. -/
def nullLength : Int := -1

/-- The bytes of the null length. -/
def nullLengthBytes : Bytes := [0xFF, 0xFF, 0xFF, 0xFF]

/-- A length that a reader accepts. -/
def checkLength (limit : Nat) (n : Int) : Except Error Nat :=
  if n < 0 then .error (.negativeFieldLength n)
  else if limit < n.toNat then .error (.fieldLengthOverLimit n.toNat limit)
  else .ok n.toNat

/-- The bytes of an id: its octets, each half from the last to the first. -/
def uuid (u : Uuid) : Bytes := (u.octets.take 8).reverse ++ (u.octets.drop 8).reverse

/-- The id that sixteen bytes stand for. -/
def ofUuid (bs : Bytes) : Uuid := .ofOctets ((bs.take 8).reverse ++ (bs.drop 8).reverse)

/-- The byte in front of an id that is there. -/
def present : UInt8 := 1

/-- The byte that stands for no id. -/
def absent : UInt8 := 0

/-- The bytes of an id that may be absent. -/
def nullableUuid : Option Uuid → Bytes
  | some u => present :: uuid u
  | none => [absent]

/-- What a probe tells: the depth in the high half of a 32-bit word, the room in the low half. -/
def probe (depth room : Nat) : Bytes := LittleEndian.toBytes 4 ((depth * 65536) ||| room)

end WireCodec.Layout
