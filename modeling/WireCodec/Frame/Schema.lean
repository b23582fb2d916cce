import WireCodec.Error
import WireCodec.Frame.Message

/-!
What messages look like to a reader: the kinds of their fields. A field that holds messages of one
type names it by its type byte, which a catalog of declared types resolves, so that types may
refer to one another; a field that holds messages of any type relies on the types that are
registered with the reader.
-/

namespace WireCodec

/-- The kinds of items. -/
inductive ItemKind where
  | primitive (k : Primitive)
  | char
  | text
  | uuid
  | grid
  /-- a message, of one type or of any -/
  | message (type : Option UInt8)
  deriving DecidableEq

/-- A kind of items as a list or a map that is being read remembers it: messages of one type and of
any are not told apart. -/
def ItemKind.erased : ItemKind → ItemKind
  | message _ => message none
  | kind => kind

/-- The kind of an item. -/
def Item.kind : Item → ItemKind
  | primitive k _ => .primitive k
  | char _ => .char
  | text _ => .text
  | uuid _ => .uuid
  | grid _ => .grid
  | message _ => .message none

/-- What a null list or map is read as. -/
inductive Absence where
  /-- an error -/
  | refused
  /-- no list or map -/
  | kept
  /-- an empty list or map -/
  | emptied
  deriving DecidableEq

/-- The kinds of fields. -/
inductive FieldKind where
  | primitive (k : Primitive)
  | char
  | text (optional : Bool)
  | bytes (optional : Bool)
  | uuid (optional : Bool)
  | grid (optional : Bool)
  | bits (optional : Bool)
  | value
  | object (t : HostType)
  /-- a message or none, of one type or of any -/
  | message (type : Option UInt8)
  | list (item : ItemKind) (absence : Absence)
  | map (key value : ItemKind) (absence : Absence)
  | stuck
  | probe
  /-- a field that is neither written nor read and holds `initial` in a new message -/
  | skipped (initial : Field)

/-- What a field holds before it is read: zero, empty or absent. A host type without such a value
leaves no value at all. -/
def FieldKind.initial : FieldKind → Field
  | .primitive k => .primitive k k.zero
  | .char => .char (Char.ofNat 0)
  | .text isOptional => .text (if isOptional then none else some "")
  | .bytes isOptional => .bytes (if isOptional then none else some [])
  | .uuid isOptional => .uuid (if isOptional then none else some .nil)
  | .grid isOptional => .grid (if isOptional then none else some ⟨.nil, 0⟩)
  | .bits isOptional => .bits (if isOptional then none else some .empty)
  | .value => .value .null
  | .object t =>
    match t.initial? with
    | some x => .object t x
    | none => .value .null
  | .message _ => .message none
  | .list _ a => .list (if a = .kept then none else some [])
  | .map _ _ a => .map (if a = .kept then none else some [])
  | .stuck => .stuck
  | .probe => .probe []
  | .skipped initial => .skipped initial initial

/-- Whether fields of a kind are written and read. -/
def FieldKind.isSent : FieldKind → Bool
  | .skipped _ => false
  | _ => true

/-- A type of messages: its type byte and the kinds of its fields. -/
structure Schema where
  type : UInt8
  fields : List FieldKind
  deriving Inhabited

namespace Schema

/-- The kinds of the fields that are read, in order. The index of a field is its place among
them. -/
def sent (s : Schema) : List FieldKind := s.fields.filter FieldKind.isSent

theorem mem_fields_of_mem_sent {s : Schema} {k : FieldKind} (h : k ∈ s.sent) : k ∈ s.fields :=
  (List.mem_filter.mp h).1

/-- Fields of the given kinds, where `read` are those that have been read. The other ones are as
in a new message. -/
def fill : List FieldKind → (read : List Field) → List Field
  | [], _ => []
  | k :: ks, read =>
    if k.isSent then read.headD k.initial :: fill ks read.tail else k.initial :: fill ks read

/-- The message of a type of which these fields have been read. -/
def build (s : Schema) (read : List Field) : Message := .mk s.type (fill s.fields read)

/-- A message of a type before any of its fields is read. -/
def initial (s : Schema) : Message := s.build []

end Schema

/-- The declared types of messages, by type byte. -/
abbrev Catalog := UInt8 → List FieldKind

/-- The type with this type byte in a catalog. -/
def Catalog.schema (c : Catalog) (type : UInt8) : Schema := ⟨type, c type⟩

/-- The types of messages that a reader creates when it meets their type bytes. -/
structure Factories where
  schemas : List Schema
  deriving Inhabited

namespace Factories

/-- No types. -/
def empty : Factories := ⟨[]⟩

/-- The number of types. -/
def size (f : Factories) : Nat := f.schemas.length

/-- Whether there is no type. -/
def isEmpty (f : Factories) : Bool := f.schemas.isEmpty

/-- The type with this type byte. -/
def find? (f : Factories) (type : UInt8) : Option Schema := f.schemas.find? (·.type == type)

/-- A new message of the type with this type byte. -/
def create (f : Factories) (type : UInt8) : Option Message := (f.find? type).map Schema.initial

/-- Whether there is a type with this type byte. -/
def contains (f : Factories) (type : UInt8) : Bool := (f.find? type).isSome

/-- The types without the one with this type byte. -/
def erase (f : Factories) (type : UInt8) : Factories := ⟨f.schemas.filter (·.type != type)⟩

/-- Adds a type, in place of the one with the same type byte. The byte of the null message is
refused. -/
def register (f : Factories) (s : Schema) : Except Error Factories :=
  if s.type = Message.nullType then .error .reservedMessageType
  else .ok ⟨(f.erase s.type).schemas ++ [s]⟩

end Factories

end WireCodec
