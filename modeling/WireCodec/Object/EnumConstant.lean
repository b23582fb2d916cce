import WireCodec.TypeRegistry

/-!
Enum constants as they travel: the type, by id or by name, and an ordinal. Reading one never looks
its type up; that happens when the constant is asked for as a constant of a host enum.
-/

namespace WireCodec

/-- An enum constant, identified by its type and ordinal. -/
structure EnumConstant where
  typeId : Int32
  name : Option String
  ordinal : Int32
  deriving DecidableEq, Repr, Inhabited

/-- A host enum: the name its constants travel under, and its constants by name and ordinal. -/
structure HostEnum where
  typeName : String
  constants : List (String × Int32)
  deriving DecidableEq, Repr

namespace EnumConstant

/-- A constant carried by its type's id. -/
def ofId (typeId : Int32) (ordinal : Int32) : EnumConstant := ⟨typeId, none, ordinal⟩

/-- A constant carried by its type's name. -/
def ofName (name : String) (ordinal : Int32) : EnumConstant :=
  ⟨TypeName.id name, some name, ordinal⟩

/-- Constants are equal when their types and ordinals are; the form of the type does not count. -/
def same (a b : EnumConstant) : Bool := a.typeId == b.typeId && a.ordinal == b.ordinal

/-- The text of a constant as it stands. -/
def text (c : EnumConstant) : String :=
  match c.name with
  | some name => s!"BinaryEnum[clsName={name}, ordinal={c.ordinal}]"
  | none => s!"BinaryEnum[typeId={c.typeId}, ordinal={c.ordinal}]"

/-- The text of a constant on a node that may know its type. -/
def textIn (types : TypeRegistry) (c : EnumConstant) : String :=
  match c.name <|> (types.find? c.typeId).map TypeEntry.name with
  | some name => s!"{name}[ordinal={c.ordinal}]"
  | none => c.text

end EnumConstant

namespace HostEnum

/-- The constants of a host enum, by their place in it. -/
abbrev Constant (e : HostEnum) : Type := Fin e.constants.length

/-- The ordinal of a constant. -/
def ordinal (e : HostEnum) (i : e.Constant) : Int32 := (e.constants[i]).2

/-- The name of a constant. -/
def constantName (e : HostEnum) (i : e.Constant) : String := (e.constants[i]).1

/-- The constant with an ordinal. -/
def ofOrdinal? (e : HostEnum) (ordinal : Int32) : Option e.Constant :=
  (List.finRange e.constants.length).find? fun i => (e.constants[i]).2 == ordinal

/-- The form in which a node sends a constant: by id where it knows the type, else by name. -/
def send (e : HostEnum) (types : TypeRegistry) (i : e.Constant) : EnumConstant :=
  match types.idOf? e.typeName with
  | some id => .ofId id (e.ordinal i)
  | none => .ofName e.typeName (e.ordinal i)

/-- The constant of a host enum that a travelled constant is. -/
def materialize (e : HostEnum) (types : TypeRegistry) (c : EnumConstant) :
    Except Error e.Constant := do
  let name ← types.nameOf c.typeId c.name
  if !TypeName.same name e.typeName then throw (.otherEnum name e.typeName)
  match e.ofOrdinal? c.ordinal with
  | some i => return i
  | none => throw (.noConstant c.ordinal e.typeName)

end HostEnum

end WireCodec
