import WireCodec.Config
import WireCodec.Cursor
import WireCodec.Marshal.Decoding
import WireCodec.Marshal.Encoding
import WireCodec.Host.Typed
import WireCodec.Text.Blank

/-!
The marshaller turns values of host types into bytes and back. Types without a fixed form have to
be registered first, as an enum or as a structured object; the latest registration counts. The
bindings that look-ups have found are kept at hand, and a registration drops the one it replaces.
-/

namespace WireCodec

/-- The value of a host type that a structured object is, where a node that knows `types` can name
the object's type. -/
def StructuredObject.materialize (o : StructuredObject) (payloads : PayloadCodec)
    (types : TypeRegistry) (t : HostType) : Except Error t.Val := do
  let _ ← types.nameOf o.typeId o.name
  t.decodePayload payloads o.payload

/-- How the values of a host type are written. -/
inductive Binding where
  /-- in the fixed form of the type, which begins with this tag -/
  | fixed (tag : Tag)
  /-- as constants of a host enum -/
  | constant
  /-- as arrays of constants of a host enum -/
  | constants
  /-- as structured objects of the type with this name -/
  | structured (name : String)
  deriving DecidableEq

namespace Binding

/-- The tag that values with this binding begin with. -/
def tag : Binding → Tag
  | fixed tag => tag
  | constant => .scalar .constant
  | constants => .scalarArray .constant
  | structured _ => .object

/-- The id of the type of the structured objects that values with this binding become. -/
def objectTypeId : Binding → Option Int32
  | structured name => some (TypeName.id name)
  | _ => none

end Binding

/-- Bindings of host types, at most one for each. -/
abbrev Bindings := List (HostType × Binding)

namespace Bindings

/-- The binding of a type. -/
def find? (b : Bindings) (t : HostType) : Option Binding :=
  match b with
  | [] => none
  | (t', binding) :: rest => if t' = t then some binding else find? rest t

/-- The bindings without the one of a type. -/
def erase (b : Bindings) (t : HostType) : Bindings :=
  b.filter fun entry => decide (entry.1 ≠ t)

/-- The bindings with the one of a type replaced. -/
def insert (b : Bindings) (t : HostType) (binding : Binding) : Bindings := (t, binding) :: b.erase t

end Bindings

/-- Encodes host values and dynamic values, and decodes them. -/
structure Marshaller where
  config : Config
  /-- what is known about types by name and id -/
  types : TypeRegistry
  /-- the registered host types -/
  hosts : Bindings
  /-- the bindings that look-ups have found -/
  published : Bindings
  /-- the form of the payloads of structured objects -/
  payloads : PayloadCodec
  deriving Inhabited

namespace Marshaller

/-- The marshaller that knows these types and on which no host type is registered. -/
def ofConfig (config : Config) (types : TypeRegistry)
    (payloads : PayloadCodec := .compact) : Marshaller :=
  ⟨config, types, [], [], payloads⟩

/-- The binding that a look-up builds where none is at hand: the fixed form, or else what the type
was registered as. -/
def build? (m : Marshaller) (t : HostType) : Option Binding :=
  (t.fixedTag?.map .fixed) <|> m.hosts.find? t

/-- The binding that a look-up finds. -/
def binding? (m : Marshaller) (t : HostType) : Option Binding :=
  m.published.find? t <|> m.build? t

/-- The marshaller after the look-up of a type: a binding that was found is kept at hand. -/
def publish (m : Marshaller) (t : HostType) : Marshaller :=
  match m.published.find? t, m.build? t with
  | none, some b => { m with published := m.published.insert t b }
  | _, _ => m

/-- Looks up how the values of a type are written. -/
def lookup (m : Marshaller) (t : HostType) : Option Binding × Marshaller :=
  (m.binding? t, m.publish t)

/-- The tag that the values of a type begin with. -/
def tagFor (m : Marshaller) (t : HostType) : Option Tag := (m.binding? t).map Binding.tag

/-- The id of the type under which values of a host type travel as structured objects. -/
def objectTypeId (m : Marshaller) (t : HostType) : Option Int32 :=
  (m.binding? t).bind Binding.objectTypeId

/-- Binds a type whose form is not fixed. -/
def install (m : Marshaller) (t : HostType) (b : Binding) : Except Error Marshaller :=
  if t.fixedTag?.isSome then .error (.fixedShape t.describe)
  else .ok { m with hosts := m.hosts.insert t b, published := m.published.erase t }

/-- Refuses a name without a visible character. -/
def checkName (name : String) : Except Error Unit :=
  if (Blank.trim name.toList).isEmpty then .error .blankTypeName else .ok ()

/-- Registers a host enum: its constants, and lists of them. -/
def registerEnum (m : Marshaller) (name : String) (e : HostEnum) : Except Error Marshaller := do
  checkName e.typeName
  let m ← m.install (.enumeration name e) .constant
  m.install (.list (.enumeration name e)) .constants

/-- Registers a host type whose values travel as structured objects under a name. -/
def registerObject (m : Marshaller) (t : HostType) (name : String) : Except Error Marshaller := do
  checkName name
  m.install t (.structured name)

/-- The bytes of a dynamic value. -/
def marshalValue (_ : Marshaller) (v : Value) : Except Error Bytes := v.encode

/-- The bytes of a value with the given binding. -/
def encodeAs (m : Marshaller) (b : Binding) : (t : HostType) → t.Val → Except Error Bytes
  | t, x =>
    match b with
    | .structured name => do
      let payload ← t.encodePayload m.payloads x
      let bytes ← (StructuredObject.send m.types name payload).encode
      return Tag.object.toByte :: bytes
    | .fixed _ =>
      match t.encodeFixed x with
      | some bytes => bytes
      | none => .error (.unboundType t.describe)
    | .constant =>
      match t, x with
      | .enumeration _ e, i => (Value.scalar .constant (e.send m.types i)).encode
      | t, _ => .error (.unboundType t.describe)
    | .constants =>
      match t, x with
      | .list (.enumeration _ e), is =>
        (Value.scalarArray .constant (is.map fun i => some (e.send m.types i))).encode
      | t, _ => .error (.unboundType t.describe)

/-- The bytes of a value of a host type, which goes by `name` where it has no binding. A dynamic
value is written as it is. -/
def marshalAs (m : Marshaller) (name : String) : (t : HostType) → t.Val → Except Error Bytes
  | .value, v => m.marshalValue v
  | t, x =>
    match m.binding? t with
    | some b => m.encodeAs b t x
    | none => .error (.unboundType name)

/-- The bytes of a value of a host type. -/
def marshal (m : Marshaller) (t : HostType) (x : t.Val) : Except Error Bytes :=
  m.marshalAs t.describe t x

/-- The bytes of a value whose type the caller does not tell. -/
def marshalErased (m : Marshaller) (t : HostType) (x : t.Val) : Except Error Bytes :=
  m.marshalAs "type-erased value" t x

/-- What decodes of this marshaller depend on. -/
def limits (m : Marshaller) : DecodeLimits where
  maxLength := m.config.maxArrayLength
  maxDepth := m.config.maxNestingDepth
  objectTypeId := m.objectTypeId

/-- Reads a value from the front of the input for a caller that asks for it with a request and
turns what was read into a value of its own. -/
def readAs {α : Type} (m : Marshaller) (r : Request) (convert : Value → Except Error α) :
    Decode α := do
  let v ← m.limits.readValue r
  match convert v with
  | .ok x => return x
  | .error e => throw e

/-- Reads a value of a host type from the front of the input. -/
def read (m : Marshaller) (t : HostType) : Decode t.Val := m.readAs t.request (t.ofValue m.payloads)

/-- The value of a host type that bytes begin with. -/
def unmarshal (m : Marshaller) (t : HostType) (bs : Bytes) : Except Error t.Val :=
  Prod.fst <$> (m.read t).runOn bs

/-- The dynamic value that bytes begin with. -/
def unmarshalValue (m : Marshaller) (bs : Bytes) : Except Error Value := m.unmarshal .value bs

/-- Writes a value at a cursor if all of it fits; otherwise the cursor stays as it is. The type is
not told, so it goes by no name. -/
def encodeAt (m : Marshaller) (c : WriteCursor) (t : HostType) (x : t.Val) :
    Except Error (Option WriteCursor) := do
  let bs ← m.marshalErased t x
  return c.putAll? bs

/-- Reads a value at a cursor for a caller that asks for it with a request and turns it into a
value of its own; where the input ends before the value does there is none yet. -/
def decodeAs {α : Type} (m : Marshaller) (c : ReadCursor) (r : Request)
    (convert : Value → Except Error α) : Except Error (Option (α × ReadCursor)) :=
  match (m.readAs r convert).runOn c.rest with
  | .ok (x, rest) => .ok (some (x, c.advance (c.rest.length - rest.length)))
  | .error e => if e.isIncomplete then .ok none else .error e

/-- Reads a value of a host type at a cursor. -/
def decodeAt (m : Marshaller) (c : ReadCursor) (t : HostType) :
    Except Error (Option (t.Val × ReadCursor)) :=
  m.decodeAs c t.request (t.ofValue m.payloads)

/-- The constant of a host enum that a travelled constant is on this node. -/
def materializeEnum (m : Marshaller) (e : HostEnum) (c : EnumConstant) : Except Error e.Constant :=
  e.materialize m.types c

/-- The value of a host type that a structured object is on this node. -/
def materializeObject (m : Marshaller) (t : HostType) (o : StructuredObject) :
    Except Error t.Val :=
  o.materialize m.payloads m.types t

end Marshaller

end WireCodec
