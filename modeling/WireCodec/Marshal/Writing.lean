import WireCodec.Buffer
import WireCodec.Bytes.Appender
import WireCodec.Marshal.Marshaller

/-!
Marshalling into an output that has content already. Values are written part by part, so a part that
cannot be written leaves the parts before it behind; what a marshaller appends is guarded against
that. A value that goes into a buffer is first written into an output of its own.
-/

namespace WireCodec

/-- Writes an id. -/
def Uuid.write (u : Uuid) : Appender Unit := do
  Appender.int64 u.high
  Appender.int64 u.low

/-- Writes a decimal. -/
def Decimal.write (d : Decimal) : Appender Unit := do
  let bytes := d.magnitudeBytes
  Appender.int32 (Int32.ofNat d.scale)
  Appender.count bytes.length
  Appender.bytes bytes

/-- Writes an instant. -/
def Timestamp.write (t : Timestamp) : Appender Unit := do
  Appender.int64 (BitVec.ofInt 64 t.seconds)
  Appender.bytes (LittleEndian.toBytes 4 t.nanoseconds)

/-- Writes an enum constant. -/
def EnumConstant.write (c : EnumConstant) : Appender Unit := do
  Appender.type c.typeId c.name
  Appender.int32 c.ordinal

/-- Writes everything of a structured object after the tag. -/
def StructuredObject.write (o : StructuredObject) : Appender Unit := do
  Appender.byte (if o.schemaId.isSome then schemaFlag else 0)
  Appender.type o.typeId o.name
  o.schemaId.forM Appender.int32
  Appender.byteLength o.payload.length
  Appender.bytes o.payload

/-- Writes a scalar after its tag. -/
def Scalar.write : (s : Scalar) → s.Val → Appender Unit
  | text, x => Appender.text x
  | uuid, x => x.write
  | decimal, x => x.write
  | timestamp, x => x.write
  | constant, x => x.write

/-- Writes an element of an array whose elements carry tags of their own. -/
def Scalar.writeElement (s : Scalar) : Option s.Val → Appender Unit
  | some x => do
    Appender.byte s.tag.toByte
    s.write x
  | none => Appender.byte Tag.null.toByte

/-- Writes an array of scalars after its tag. -/
def Scalar.writeArray (s : Scalar) (xs : List (Option s.Val)) : Appender Unit := do
  Appender.count xs.length
  xs.forM s.writeElement

/-- Writes an array of a fixed-width kind after its tag. -/
def Primitive.writeArray (k : Primitive) (xs : List k.Val) : Appender Unit := do
  Appender.count xs.length
  xs.forM (Appender.primitive k)

namespace Value

mutual

/-- Writes a value, its tag first. -/
def write (v : Value) : Appender Unit := do
  Appender.byte v.tag.toByte
  match v with
  | null => return
  | primitive k x => Appender.primitive k x
  | primitiveArray k xs => k.writeArray xs
  | scalar s x => s.write x
  | scalarArray s xs => s.writeArray xs
  | objectArray xs =>
    Appender.count xs.length
    writes xs
  | collection flavor xs =>
    Appender.count xs.length
    Appender.byte (flavorByte flavor.code)
    writes xs
  | map flavor entries =>
    Appender.count entries.length
    Appender.byte (flavorByte flavor.code)
    writeEntries entries
  | mapEntry key value =>
    write key
    write value
  | object o => o.write

/-- Writes values one after the other. -/
def writes : List Value → Appender Unit
  | [] => return
  | v :: vs => do
    write v
    writes vs

/-- Writes entries one after the other, each key before its value. -/
def writeEntries : List (Value × Value) → Appender Unit
  | [] => return
  | (k, v) :: entries => do
    write k
    write v
    writeEntries entries

end

end Value

namespace HostType

/-- Writes what follows the tag in the form of a type whose form is fixed. -/
def writeContent : (t : HostType) → t.Val → Appender Unit
  | primitive k, x => Appender.primitive k x
  | char, c => Appender.char c
  | scalar s, x => s.write x
  | unit, _ => return
  | object, o => o.write
  | list (primitive k), xs => k.writeArray xs
  | list char, cs => do
    Appender.count cs.length
    cs.forM Appender.char
  | list (scalar s), xs => s.writeArray (xs.map some)
  | list (option (scalar .text)), xs => Scalar.writeArray .text xs
  | list value, xs => do
    Appender.count xs.length
    xs.forM Value.write
  | deque value, xs => do
    Appender.count xs.length
    Appender.byte (flavorByte CollectionFlavor.linkedList.code)
    xs.forM Value.write
  | set sorted .text, xs => do
    Appender.count xs.length
    Appender.byte (flavorByte (if sorted then CollectionFlavor.treeSet else .hashSet).code)
    (KeyKind.iterate .text sorted xs).forM textElement
  | map sorted .text value, es => do
    Appender.count es.length
    Appender.byte (flavorByte (if sorted then MapFlavor.treeMap else .hashMap).code)
    (KeyKind.iterateEntries .text sorted es).forM textEntry
  | pair value value, (x, y) => do
    Value.write x
    Value.write y
  | t, _ => throw (.unboundType t.describe)
where
  /-- Writes a text with its tag. -/
  textElement (s : String) : Appender Unit := do
    Appender.byte (Tag.scalar .text).toByte
    Appender.text s
  /-- Writes a text and a value, each with its tag. -/
  textEntry (entry : String × Value) : Appender Unit := do
    textElement entry.1
    Value.write entry.2

/-- Writes a value of a type with a fixed form, its tag first. -/
def writeFixed (t : HostType) (x : t.Val) : Appender Unit :=
  match t.fixedTag? with
  | some tag => do
    Appender.byte tag.toByte
    t.writeContent x
  | none => throw (.unboundType t.describe)

end HostType

namespace Marshaller

/-- Writes a value with the given binding. The payload of a structured object is put together
before anything is written. -/
def writeAs (m : Marshaller) (b : Binding) : (t : HostType) → t.Val → Appender Unit
  | t, x =>
    match b with
    | .structured name => do
      let payload ← Appender.lift (t.encodePayload m.payloads x)
      Appender.byte Tag.object.toByte
      (StructuredObject.send m.types name payload).write
    | .fixed _ => t.writeFixed x
    | .constant =>
      match t, x with
      | .enumeration _ e, i => (Value.scalar .constant (e.send m.types i)).write
      | t, _ => throw (.unboundType t.describe)
    | .constants =>
      match t, x with
      | .list (.enumeration _ e), is =>
        (Value.scalarArray .constant (is.map fun i => some (e.send m.types i))).write
      | t, _ => throw (.unboundType t.describe)

/-- Appends a dynamic value. -/
def marshalValueInto (_ : Marshaller) (v : Value) : Appender Unit := Appender.guarded v.write

/-- Appends a value of a host type, which goes by `name` where it has no binding. -/
def appendAs (m : Marshaller) (name : String) : (t : HostType) → t.Val → Appender Unit
  | .value, v => m.marshalValueInto v
  | t, x =>
    match m.binding? t with
    | some b => Appender.guarded (m.writeAs b t x)
    | none => throw (.unboundType name)

/-- Appends a value of a host type. -/
def marshalInto (m : Marshaller) (t : HostType) (x : t.Val) : Appender Unit :=
  m.appendAs t.describe t x

/-- Appends a value whose type the caller does not tell. -/
def marshalErasedInto (m : Marshaller) (t : HostType) (x : t.Val) : Appender Unit :=
  m.appendAs "type-erased value" t x

/-- Writes a value into a buffer if all of it fits, and tells whether it did. -/
def encodeInto (m : Marshaller) (b : Buffer) (t : HostType) (x : t.Val) :
    Except Error Bool × Buffer :=
  match (m.marshalErasedInto t x).run .empty with
  | .ok () out =>
    let (fits, b) := b.putAll out.bytes.toList
    (.ok fits, b)
  | .error e _ => (.error e, b)

end Marshaller

end WireCodec
