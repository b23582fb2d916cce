import WireCodec.Object.Value

/-!
Keys: the values that sets hold and maps are looked up by. A set or a map of a host is a list
without repetitions in the order in which its elements came; `KeyKind.ascending` is the order in
which a sorted one is gone through.
-/

namespace WireCodec

/-- The kinds of values that sets hold and maps are keyed by. -/
inductive KeyKind where
  | bool
  | int (w : Width) (s : Sign)
  | char
  | text
  | uuid
  deriving DecidableEq, Repr

/-- The values of a kind of keys. -/
@[reducible] def KeyKind.Val : KeyKind → Type
  | .bool => Bool
  | .int w _ => w.Word
  | .char => Char
  | .text => String
  | .uuid => Uuid

/-- The order of keys: integers by number, texts by code points, ids by their octets. -/
def KeyKind.compare : (k : KeyKind) → k.Val → k.Val → Ordering
  | .bool, x, y => Ord.compare x y
  | .int _ s, x, y => Ord.compare (s.read x) (s.read y)
  | .char, x, y => Ord.compare x.toNat y.toNat
  | .text, x, y => Ord.compare x y
  | .uuid, x, y => Uuid.compare x y

/-- Whether two keys are the same. -/
def KeyKind.same : (k : KeyKind) → k.Val → k.Val → Bool
  | .bool, x, y => x == y
  | .int _ _, x, y => x == y
  | .char, x, y => x == y
  | .text, x, y => x == y
  | .uuid, x, y => x == y

namespace KeyKind

/-- A set with an element added, at the end unless it is there already. -/
def insert (k : KeyKind) (xs : List k.Val) (x : k.Val) : List k.Val :=
  if xs.any (k.same x) then xs else xs ++ [x]

/-- The set of the elements of a list. -/
def ofList (k : KeyKind) (xs : List k.Val) : List k.Val := xs.foldl k.insert []

/-- A map with an entry added: in place of the one with the same key, or at the end. -/
def insertEntry {α : Type} (k : KeyKind) : List (k.Val × α) → k.Val × α → List (k.Val × α)
  | [], e => [e]
  | d :: rest, e => if k.same d.1 e.1 then (d.1, e.2) :: rest else d :: insertEntry k rest e

/-- The map of the entries of a list, where later ones count. -/
def ofEntries {α : Type} (k : KeyKind) (es : List (k.Val × α)) : List (k.Val × α) :=
  es.foldl k.insertEntry []

/-- The elements of a set in ascending order. -/
def ascending (k : KeyKind) (xs : List k.Val) : List k.Val :=
  xs.mergeSort fun x y => (k.compare x y).isLE

/-- The entries of a map in ascending order of their keys. -/
def ascendingEntries {α : Type} (k : KeyKind) (es : List (k.Val × α)) : List (k.Val × α) :=
  es.mergeSort fun x y => (k.compare x.1 y.1).isLE

/-- The elements of a set in the order in which the set is gone through. -/
def iterate (k : KeyKind) (sorted : Bool) (xs : List k.Val) : List k.Val :=
  if sorted then k.ascending xs else xs

/-- The entries of a map in the order in which the map is gone through. -/
def iterateEntries {α : Type} (k : KeyKind) (sorted : Bool) (es : List (k.Val × α)) :
    List (k.Val × α) :=
  if sorted then k.ascendingEntries es else es

end KeyKind

end WireCodec
