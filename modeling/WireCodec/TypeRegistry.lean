import WireCodec.Error
import WireCodec.TypeName

/-!
What a node knows about types: the names it has registered under the ids that the names hash to.
An id belongs to one name up to the case of ASCII letters, and an entry is never changed.
-/

namespace WireCodec

/-- What a registered name stands for. -/
inductive TypeKind where
  | enum | object
  deriving DecidableEq, Repr

/-- What is known about a type. -/
structure TypeEntry where
  id : Int32
  name : String
  kind : TypeKind
  deriving DecidableEq, Repr

/-- The types that a node knows. -/
structure TypeRegistry where
  entries : List TypeEntry
  deriving DecidableEq, Inhabited

namespace TypeRegistry

/-- The registry that knows no type. -/
def empty : TypeRegistry := ⟨[]⟩

/-- The number of types known. -/
def size (r : TypeRegistry) : Nat := r.entries.length

/-- Whether no type is known. -/
def isEmpty (r : TypeRegistry) : Bool := r.entries.isEmpty

/-- What is known about the type with this id. -/
def find? (r : TypeRegistry) (id : Int32) : Option TypeEntry := r.entries.find? (·.id == id)

/-- The id of a name, if the type is known by this name. -/
def idOf? (r : TypeRegistry) (name : String) : Option Int32 :=
  match r.find? (TypeName.id name) with
  | some e => if TypeName.same e.name name then some e.id else none
  | none => none

/-- Makes a name known, and gives its id. A name that is known already adds nothing; one whose id
is the reserved zero, or belongs to another name, is refused. -/
def register (r : TypeRegistry) (name : String) (kind : TypeKind) :
    Except Error (Int32 × TypeRegistry) :=
  let id := TypeName.id name
  if id = 0 then .error (.reservedTypeId name)
  else
    match r.find? id with
    | some e =>
      if TypeName.same e.name name then .ok (id, r) else .error (.typeIdTaken id name e.name)
    | none => .ok (id, ⟨r.entries ++ [⟨id, name, kind⟩]⟩)

/-- The name that a type reference stands for: the one that travelled with it, or else the one
that its id is known by. -/
def nameOf (r : TypeRegistry) (id : Int32) (name : Option String) : Except Error String :=
  match name, r.find? id with
  | some n, _ => .ok n
  | none, some e => .ok e.name
  | none, none => .error (.unregisteredId id)

end TypeRegistry

end WireCodec
