import WireCodec.Object.Flavor
import WireCodec.Object.Scalar

/-!
Dynamic values: everything that the object codec can carry. An integer knows its sign, although
the wire does not tell it; reading gives the signed form unless the caller asks for the other.
-/

namespace WireCodec

/-- A value of any kind. Maps keep the order and the duplicates that they have on the wire. -/
inductive Value where
  | null
  | primitive (k : Primitive) (x : k.Val)
  | primitiveArray (k : Primitive) (xs : List k.Val)
  | scalar (s : Scalar) (x : s.Val)
  | scalarArray (s : Scalar) (xs : List (Option s.Val))
  | objectArray (xs : List Value)
  | collection (flavor : CollectionFlavor) (xs : List Value)
  | map (flavor : MapFlavor) (entries : List (Value × Value))
  | mapEntry (key value : Value)
  | object (o : StructuredObject)
  deriving Inhabited

namespace Value

/-- A text as a value. -/
abbrev text (s : String) : Value := .scalar .text s

/-- A 32-bit signed integer as a value. -/
abbrev int32 (x : BitVec 32) : Value := .primitive (.int .w32 .signed) x

/-- The tag that a value is written with. -/
def tag : Value → Tag
  | null => .null
  | primitive k _ => .one k.form
  | primitiveArray k _ => .array k.form
  | scalar s _ => .scalar s
  | scalarArray s _ => .scalarArray s
  | objectArray _ => .objectArray
  | collection _ _ => .collection
  | map _ _ => .map
  | mapEntry _ _ => .mapEntry
  | object _ => .object

/-- The short name of a value's kind. -/
def kind : Value → String
  | null => "null"
  | primitive k _ => k.name
  | primitiveArray k _ => k.name ++ " array"
  | scalar s _ => s.name
  | scalarArray s _ => s.name ++ " array"
  | objectArray _ => "object array"
  | collection _ _ => "collection"
  | map _ _ => "map"
  | mapEntry _ _ => "map entry"
  | object _ => "object"

/-- Whether a value is the absent one. -/
def isNull : Value → Bool
  | null => true
  | _ => false

/-- The elements of an array or a collection; absent elements of scalar arrays are null values. -/
def elements? : Value → Option (List Value)
  | primitiveArray k xs => some (xs.map (primitive k))
  | scalarArray s xs => some (xs.map fun x => (x.map (scalar s)).getD null)
  | objectArray xs => some xs
  | collection _ xs => some xs
  | _ => none

/-- Whether the elements of two lists are pairwise equal under `eq`, and as many. -/
def sameList {α : Type} (eq : α → α → Bool) : List α → List α → Bool
  | [], [] => true
  | x :: xs, y :: ys => eq x y && sameList eq xs ys
  | _, _ => false

/-- Whether two elements of a scalar array are both absent, or both present and equal. -/
def sameOption {α : Type} (eq : α → α → Bool) : Option α → Option α → Bool
  | none, none => true
  | some x, some y => eq x y
  | _, _ => false

mutual

/-- Whether two values are equal: of one kind, with equal parts. Floats compare as IEEE 754 says,
decimals as numbers, enum constants by type and ordinal, and maps entry by entry in their order. -/
def same : Value → Value → Bool
  | null, null => true
  | primitive k x, primitive k' y => if h : k = k' then k'.same (h ▸ x) y else false
  | primitiveArray k xs, primitiveArray k' ys =>
    if h : k = k' then sameList k'.same (h ▸ xs) ys else false
  | scalar s x, scalar s' y => if h : s = s' then s'.same (h ▸ x) y else false
  | scalarArray s xs, scalarArray s' ys =>
    if h : s = s' then sameList (sameOption s'.same) (h ▸ xs) ys else false
  | objectArray xs, objectArray ys => sames xs ys
  | collection f xs, collection f' ys => f == f' && sames xs ys
  | map f xs, map f' ys => f == f' && sameEntries xs ys
  | mapEntry k v, mapEntry k' v' => same k k' && same v v'
  | object o, object o' => o == o'
  | _, _ => false

/-- Whether two lists of values are pairwise equal. -/
def sames : List Value → List Value → Bool
  | [], [] => true
  | x :: xs, y :: ys => same x y && sames xs ys
  | _, _ => false

/-- Whether two lists of entries are pairwise equal. -/
def sameEntries : List (Value × Value) → List (Value × Value) → Bool
  | [], [] => true
  | (k, v) :: xs, (k', v') :: ys => same k k' && same v v' && sameEntries xs ys
  | _, _ => false

end

end Value

end WireCodec
