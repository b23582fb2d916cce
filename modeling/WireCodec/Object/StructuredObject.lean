import WireCodec.Bytes.Decode
import WireCodec.Bytes.Encode
import WireCodec.TypeRegistry

/-!
Structured objects, kept in encoded form: a type, by id or by name, an optional schema id and a
payload that nothing here looks into. An id of zero on the wire says that a name follows.
-/

namespace WireCodec

/-- An object of some type, in encoded form. -/
structure StructuredObject where
  typeId : Int32
  name : Option String
  schemaId : Option Int32
  payload : Bytes
  deriving DecidableEq, Repr, Inhabited

namespace StructuredObject

/-- An object carried by its type's id. -/
def ofId (typeId : Int32) (payload : Bytes) : StructuredObject := ⟨typeId, none, none, payload⟩

/-- An object carried by its type's name. -/
def ofName (name : String) (payload : Bytes) : StructuredObject :=
  ⟨TypeName.id name, some name, none, payload⟩

/-- The object with a schema id attached. -/
def withSchema (o : StructuredObject) (schemaId : Int32) : StructuredObject :=
  { o with schemaId := some schemaId }

/-- The form in which a node sends an object: by id where it knows the type, else by name. -/
def send (types : TypeRegistry) (typeName : String) (payload : Bytes) : StructuredObject :=
  match types.idOf? typeName with
  | some id => .ofId id payload
  | none => .ofName typeName payload

/-- The length of the payload as a 32-bit number. -/
def payloadLength (o : StructuredObject) : Int32 := Int32.ofNat o.payload.length

/-- The flag that says that a schema id follows. -/
def schemaFlag : UInt8 := 1

/-- Everything after the tag. -/
def encode (o : StructuredObject) : Except Error Bytes := do
  let flags := if o.schemaId.isSome then schemaFlag else 0
  let type ← match o.name with
    | some name => (Encode.int32 0 ++ ·) <$> Encode.text name
    | none => pure (Encode.int32 o.typeId)
  let schema := match o.schemaId with
    | some id => Encode.int32 id
    | none => []
  let length ← Encode.byteLength o.payload.length
  return flags :: type ++ schema ++ length ++ o.payload

/-- Reads everything after the tag. -/
def decode (maxLength : Nat) : Decode StructuredObject := do
  let flags ← Decode.byte
  let wireId ← Decode.int32
  let name ← if wireId = 0 then some <$> Decode.text else pure none
  let schemaId ← if flags &&& schemaFlag = schemaFlag then some <$> Decode.int32 else pure none
  let length ← Decode.length maxLength
  let payload ← Decode.take length
  return ⟨(name.map TypeName.id).getD wireId, name, schemaId, payload⟩

end StructuredObject

end WireCodec
