import WireCodec.Error

/-!
Flavors of collections and maps: which of its container classes a node should rebuild a
collection or a map as.
-/

namespace WireCodec

/-- The flavors of collections. -/
inductive CollectionFlavor where
  | userSet | userCollection | arrayList | linkedList | hashSet | linkedHashSet | treeSet
  | concurrentSkipListSet
  deriving DecidableEq, Repr, Inhabited

namespace CollectionFlavor

/-- All flavors, in the order of their codes. -/
def all : List CollectionFlavor :=
  [userSet, userCollection, arrayList, linkedList, hashSet, linkedHashSet, treeSet,
    concurrentSkipListSet]

/-- The code of a flavor on the wire. -/
def code : CollectionFlavor → Int
  | userSet => -1
  | userCollection => 0
  | arrayList => 1
  | linkedList => 2
  | hashSet => 3
  | linkedHashSet => 4
  | treeSet => 5
  | concurrentSkipListSet => 6

/-- The flavor with the given code. -/
def ofCode (n : Int) : Except Error CollectionFlavor :=
  match all.find? (·.code == n) with
  | some f => .ok f
  | none => .error (.collectionFlavor n)

/-- The name of a flavor. -/
def name : CollectionFlavor → String
  | userSet => "UserSet"
  | userCollection => "UserCollection"
  | arrayList => "ArrayList"
  | linkedList => "LinkedList"
  | hashSet => "HashSet"
  | linkedHashSet => "LinkedHashSet"
  | treeSet => "TreeSet"
  | concurrentSkipListSet => "ConcurrentSkipListSet"

/-- Whether collections of this flavor are sets. -/
def isSet : CollectionFlavor → Bool
  | userSet | hashSet | linkedHashSet | treeSet | concurrentSkipListSet => true
  | userCollection | arrayList | linkedList => false

theorem ofCode_code (f : CollectionFlavor) : ofCode f.code = .ok f := by cases f <;> rfl

end CollectionFlavor

/-- The flavors of maps. -/
inductive MapFlavor where
  | userMap | hashMap | linkedHashMap | treeMap | concurrentHashMap
  deriving DecidableEq, Repr, Inhabited

namespace MapFlavor

/-- All flavors, in the order of their codes. -/
def all : List MapFlavor := [userMap, hashMap, linkedHashMap, treeMap, concurrentHashMap]

/-- The code of a flavor on the wire. -/
def code : MapFlavor → Int
  | userMap => 0
  | hashMap => 1
  | linkedHashMap => 2
  | treeMap => 3
  | concurrentHashMap => 4

/-- The flavor with the given code. -/
def ofCode (n : Int) : Except Error MapFlavor :=
  match all.find? (·.code == n) with
  | some f => .ok f
  | none => .error (.mapFlavor n)

/-- The name of a flavor. -/
def name : MapFlavor → String
  | userMap => "UserMap"
  | hashMap => "HashMap"
  | linkedHashMap => "LinkedHashMap"
  | treeMap => "TreeMap"
  | concurrentHashMap => "ConcurrentHashMap"

theorem ofCode_code (f : MapFlavor) : ofCode f.code = .ok f := by cases f <;> rfl

end MapFlavor

end WireCodec
