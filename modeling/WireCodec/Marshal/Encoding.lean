import WireCodec.Host.HostType

/-!
The bytes of values: the tag, then what the tag announces. `Value.encode` writes a dynamic value,
`HostType.encodeFixed` a value of a host type with a fixed form. Either all bytes come out or an
error does.
-/

namespace WireCodec

/-- The bytes of the elements of an array whose elements carry tags of their own. -/
def Scalar.encodeElements (s : Scalar) : List (Option s.Val) → Except Error Bytes :=
  Encode.each fun
    | some x => (s.tag.toByte :: ·) <$> s.encode x
    | none => .ok [Tag.null.toByte]

/-- The bytes of an array of scalars after its tag. -/
def Scalar.encodeArray (s : Scalar) (xs : List (Option s.Val)) : Except Error Bytes := do
  let n ← Encode.count xs.length
  let body ← s.encodeElements xs
  return n ++ body

/-- The bytes of an array of a fixed-width kind after its tag. -/
def Primitive.encodeArray (k : Primitive) (xs : List k.Val) : Except Error Bytes := do
  let n ← Encode.count xs.length
  return n ++ xs.flatMap k.encode

/-- The byte of a flavor. -/
def flavorByte (code : Int) : UInt8 := UInt8.ofNat (code % 256).toNat

namespace Value

mutual

/-- The bytes of a value, tag included. -/
def encode (v : Value) : Except Error Bytes :=
  match v with
  | null => .ok [Tag.null.toByte]
  | primitive k x => .ok ((Tag.one k.form).toByte :: k.encode x)
  | primitiveArray k xs => ((Tag.array k.form).toByte :: ·) <$> k.encodeArray xs
  | scalar s x => (s.tag.toByte :: ·) <$> s.encode x
  | scalarArray s xs => ((Tag.scalarArray s).toByte :: ·) <$> s.encodeArray xs
  | objectArray xs => do
    let n ← Encode.count xs.length
    let body ← encodes xs
    return Tag.objectArray.toByte :: n ++ body
  | collection flavor xs => do
    let n ← Encode.count xs.length
    let body ← encodes xs
    return Tag.collection.toByte :: n ++ flavorByte flavor.code :: body
  | map flavor entries => do
    let n ← Encode.count entries.length
    let body ← encodeEntries entries
    return Tag.map.toByte :: n ++ flavorByte flavor.code :: body
  | mapEntry key value => do
    let k ← encode key
    let v ← encode value
    return Tag.mapEntry.toByte :: k ++ v
  | object o => (Tag.object.toByte :: ·) <$> o.encode

/-- The bytes of values one after the other. -/
def encodes : List Value → Except Error Bytes
  | [] => .ok []
  | v :: vs => do
    let b ← encode v
    let bs ← encodes vs
    return b ++ bs

/-- The bytes of entries one after the other, each key before its value. -/
def encodeEntries : List (Value × Value) → Except Error Bytes
  | [] => .ok []
  | (k, v) :: entries => do
    let a ← encode k
    let b ← encode v
    let bs ← encodeEntries entries
    return a ++ b ++ bs

end

end Value

namespace HostType

/-- What follows the tag in the form of a type whose form is fixed; other types have none here. -/
def encodeContent : (t : HostType) → t.Val → Option (Except Error Bytes)
  | primitive k, x => some (.ok (k.encode x))
  | char, c => some (Encode.char c)
  | scalar s, x => some (s.encode x)
  | unit, _ => some (.ok [])
  | object, o => some o.encode
  | list (primitive k), xs => some (k.encodeArray xs)
  | list char, cs => some do
    let n ← Encode.count cs.length
    let body ← Encode.each Encode.char cs
    return n ++ body
  | list (scalar s), xs => some (s.encodeArray (xs.map some))
  | list (option (scalar .text)), xs => some (Scalar.encodeArray .text xs)
  | list value, xs => some do
    let n ← Encode.count xs.length
    let body ← Encode.each Value.encode xs
    return n ++ body
  | deque value, xs => some do
    let n ← Encode.count xs.length
    let body ← Encode.each Value.encode xs
    return n ++ flavorByte CollectionFlavor.linkedList.code :: body
  | set sorted .text, xs => some do
    let n ← Encode.count xs.length
    let flavor := if sorted then CollectionFlavor.treeSet else CollectionFlavor.hashSet
    let body ← Encode.each (textElement) (KeyKind.iterate .text sorted xs)
    return n ++ flavorByte flavor.code :: body
  | map sorted .text value, es => some do
    let n ← Encode.count es.length
    let flavor := if sorted then MapFlavor.treeMap else MapFlavor.hashMap
    let body ← Encode.each textEntry (KeyKind.iterateEntries .text sorted es)
    return n ++ flavorByte flavor.code :: body
  | pair value value, (x, y) => some do
    let a ← Value.encode x
    let b ← Value.encode y
    return a ++ b
  | _, _ => none
where
  /-- A text with its tag. -/
  textElement (s : String) : Except Error Bytes :=
    ((Tag.scalar .text).toByte :: ·) <$> Encode.text s
  /-- A text and a value, each with its tag. -/
  textEntry (entry : String × Value) : Except Error Bytes := do
    let k ← textElement entry.1
    let v ← Value.encode entry.2
    return k ++ v

/-- The bytes of a value of a type with a fixed form, tag included. -/
def encodeFixed (t : HostType) (x : t.Val) : Option (Except Error Bytes) :=
  match t.fixedTag?, t.encodeContent x with
  | some tag, some content => some ((tag.toByte :: ·) <$> content)
  | _, _ => none

end HostType

end WireCodec
