import WireCodec.Decimal
import WireCodec.Object.EnumConstant
import WireCodec.Object.StructuredObject
import WireCodec.Timestamp
import WireCodec.Uuid

/-!
The scalars with a layout of their own: texts, ids, decimals, instants and enum constants.
-/

namespace WireCodec

/-- The bytes of an id: two 64-bit halves, the more significant one first. -/
def Uuid.encode (u : Uuid) : Bytes := Encode.int64 u.high ++ Encode.int64 u.low

/-- Reads an id. -/
def Uuid.decode : Decode Uuid := do
  let high ← Decode.int64
  let low ← Decode.int64
  return .ofHalves high low

/-- The bytes of a decimal: its scale, then the number of its magnitude bytes and these bytes. -/
def Decimal.encode (d : Decimal) : Except Error Bytes := do
  let bytes := d.magnitudeBytes
  let n ← Encode.count bytes.length
  return Encode.int32 (Int32.ofNat d.scale) ++ n ++ bytes

/-- Reads a decimal. -/
def Decimal.decode : Decode Decimal := do
  let scale ← Decode.int32
  let length ← Decode.size
  let bytes ← Decode.take length
  match Decimal.ofWire scale.toInt bytes with
  | .ok d => return d
  | .error e => throw e

/-- The bytes of an instant: its seconds in eight bytes, its nanoseconds in four. -/
def Timestamp.encode (t : Timestamp) : Bytes :=
  Encode.int64 (BitVec.ofInt 64 t.seconds) ++ LittleEndian.toBytes 4 t.nanoseconds

/-- Reads an instant. -/
def Timestamp.decode : Decode Timestamp := do
  let seconds ← Decode.int64
  let nanoseconds ← Decode.int32
  match Timestamp.ofWire? seconds.toInt nanoseconds.toInt with
  | some t => return t
  | none => throw (.timestampRange seconds.toInt nanoseconds.toInt)

/-- The bytes of an enum constant: its type's id, or zero and the name, then the ordinal. -/
def EnumConstant.encode (c : EnumConstant) : Except Error Bytes := do
  let type ← match c.name with
    | some name => (Encode.int32 0 ++ ·) <$> Encode.text name
    | none => pure (Encode.int32 c.typeId)
  return type ++ Encode.int32 c.ordinal

/-- Reads an enum constant. -/
def EnumConstant.decode : Decode EnumConstant := do
  let typeId ← Decode.int32
  if typeId = 0 then
    let name ← Decode.text
    let ordinal ← Decode.int32
    return .ofName name ordinal
  else
    let ordinal ← Decode.int32
    return .ofId typeId ordinal

namespace Scalar

/-- The values of a scalar kind. -/
@[reducible] def Val : Scalar → Type
  | text => String
  | uuid => Uuid
  | decimal => Decimal
  | timestamp => Timestamp
  | constant => EnumConstant

/-- The tag in front of a scalar. -/
def tag (s : Scalar) : Tag := .scalar s

/-- The short name of a kind. -/
def name : Scalar → String
  | text => "string"
  | uuid => "uuid"
  | decimal => "decimal"
  | timestamp => "timestamp"
  | constant => "enum"

/-- Whether two scalars of a kind are equal: decimals as numbers, constants by type and ordinal. -/
def same : (s : Scalar) → s.Val → s.Val → Bool
  | text, x, y => x == y
  | uuid, x, y => x == y
  | decimal, x, y => Decimal.same x y
  | timestamp, x, y => x == y
  | constant, x, y => EnumConstant.same x y

/-- The bytes of a scalar after its tag. -/
def encode : (s : Scalar) → s.Val → Except Error Bytes
  | text, x => Encode.text x
  | uuid, x => .ok x.encode
  | decimal, x => x.encode
  | timestamp, x => .ok x.encode
  | constant, x => x.encode

/-- Reads a scalar after its tag. -/
def decode : (s : Scalar) → Decode s.Val
  | text => Decode.text
  | uuid => Uuid.decode
  | decimal => Decimal.decode
  | timestamp => Timestamp.decode
  | constant => EnumConstant.decode

end Scalar

end WireCodec
