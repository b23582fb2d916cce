import WireCodec.Host.Key

/-!
Host types: the types of the values that a program hands to the codec and asks it for. A type says
what its values are (`HostType.Val`), which tag they have when their form on the wire is fixed
(`HostType.fixedTag?`), and by which name a message tells that something else was found.
-/

namespace WireCodec

mutual

/-- A type of host values. -/
inductive HostType where
  | primitive (k : Primitive)
  /-- a character, which travels as one UTF-16 unit -/
  | char
  | scalar (s : Scalar)
  | unit
  /-- any dynamic value -/
  | value
  /-- a structured object in encoded form -/
  | object
  | option (t : HostType)
  | list (t : HostType)
  | deque (t : HostType)
  /-- a set, which is written in ascending order if it is `sorted` -/
  | set (sorted : Bool) (k : KeyKind)
  /-- a map, which is written in ascending order of its keys if it is `sorted` -/
  | map (sorted : Bool) (k : KeyKind) (t : HostType)
  | pair (a b : HostType)
  /-- a host enum, under the name the host knows it by -/
  | enumeration (name : String) (e : HostEnum)
  /-- a type of the host's own with the given content -/
  | record (name : String) (content : HostType)
  /-- a choice between several contents -/
  | choice (arms : HostArms)

/-- The contents that a choice is between, at least one. -/
inductive HostArms where
  | last (t : HostType)
  | more (t : HostType) (rest : HostArms)

end

deriving instance DecidableEq for HostType

mutual

/-- The values of a host type. Sets and maps are in the order in which their elements came. -/
@[reducible] def HostType.Val : HostType → Type
  | .primitive k => k.Val
  | .char => Char
  | .scalar s => s.Val
  | .unit => Unit
  | .value => Value
  | .object => StructuredObject
  | .option t => Option t.Val
  | .list t => List t.Val
  | .deque t => List t.Val
  | .set _ k => List k.Val
  | .map _ k t => List (k.Val × t.Val)
  | .pair a b => a.Val × b.Val
  | .enumeration _ e => e.Constant
  | .record _ content => content.Val
  | .choice arms => arms.Val

/-- The values of a choice. -/
@[reducible] def HostArms.Val : HostArms → Type
  | .last t => t.Val
  | .more t rest => t.Val ⊕ rest.Val

end

/-- The host type of the keys of a kind. -/
def KeyKind.hostType : KeyKind → HostType
  | .bool => .primitive .bool
  | .int w s => .primitive (.int w s)
  | .char => .char
  | .text => .scalar .text
  | .uuid => .scalar .uuid

/-- The name under which mismatches tell a scalar kind. -/
def Scalar.expected : Scalar → String
  | .text => "String"
  | .uuid => "Uuid"
  | .decimal => "Decimal"
  | .timestamp => "DateTime<Utc>"
  | .constant => "EnumValue"

/-- What a kind of keys is called in messages. -/
def KeyKind.describe : KeyKind → String
  | .bool => Primitive.name .bool
  | .int w s => Primitive.name (.int w s)
  | .char => "char"
  | .text => Scalar.expected .text
  | .uuid => Scalar.expected .uuid

namespace HostType

/-- The tag of the values of a type whose form is fixed. Other types have to be registered. -/
def fixedTag? : HostType → Option Tag
  | primitive k => some (.one k.form)
  | char => some (.one .unit)
  | scalar s => some (.scalar s)
  | unit => some .null
  | object => some .object
  | list (primitive k) => some (.array k.form)
  | list char => some (.array .unit)
  | list (scalar s) => some (.scalarArray s)
  | list (option (scalar .text)) => some (.scalarArray .text)
  | list value => some .objectArray
  | deque value => some .collection
  | set _ .text => some .collection
  | map _ .text value => some .map
  | pair value value => some .mapEntry
  | _ => none

/-- What a type is called in messages. -/
def describe : HostType → String
  | primitive k => k.name
  | char => "char"
  | scalar s => s.expected
  | unit => "unit"
  | value => "value"
  | object => "object"
  | option t => s!"optional {t.describe}"
  | list t => s!"list of {t.describe}"
  | deque t => s!"queue of {t.describe}"
  | set _ k => s!"set of {k.describe}"
  | map _ k t => s!"map from {k.describe} to {t.describe}"
  | pair a b => s!"pair of {a.describe} and {b.describe}"
  | enumeration name _ => name
  | record name _ => name
  | choice _ => "choice"

end HostType

/-- The scalar that a host begins with, where there is one. -/
def Scalar.initial? : (s : Scalar) → Option s.Val
  | .text => some ""
  | .uuid => some .nil
  | .decimal => some ⟨false, 0, 0⟩
  | .timestamp => some .epoch
  | .constant => none

mutual

/-- The value that a host begins with before anything is read: zero, empty or absent, where the
type has such a value. -/
def HostType.initial? : (t : HostType) → Option t.Val
  | .primitive k => some k.zero
  | .char => some (Char.ofNat 0)
  | .scalar s => s.initial?
  | .unit => some ()
  | .value => some .null
  | .object => none
  | .option _ => some none
  | .list _ => some []
  | .deque _ => some []
  | .set _ _ => some []
  | .map _ _ _ => some []
  | .pair a b => do
    let x ← a.initial?
    let y ← b.initial?
    return (x, y)
  | .enumeration _ e => if h : 0 < e.constants.length then some ⟨0, h⟩ else none
  | .record _ content => content.initial?
  | .choice arms => arms.initial?

/-- The first content of a choice, as a host begins with it. -/
def HostArms.initial? : (arms : HostArms) → Option arms.Val
  | .last t => t.initial?
  | .more t _ => t.initial?.map .inl

end

end WireCodec
