import WireCodec.BitSet
import WireCodec.GridId
import WireCodec.Host.HostType

/-!
Messages: a type byte and fields in a fixed order. A field holds one value, a list or a map of
items, or other messages; what a field does not have is `none`.
-/

namespace WireCodec

mutual

/-- An element of a list, or a key or a value of a map. -/
inductive Item where
  | primitive (k : Primitive) (x : k.Val)
  | char (c : Char)
  | text (s : String)
  | uuid (u : Uuid)
  | grid (g : GridId)
  | message (m : Message)

/-- The content of a field. -/
inductive Field where
  | primitive (k : Primitive) (x : k.Val)
  | char (c : Char)
  | text (s : Option String)
  | bytes (bs : Option Bytes)
  | uuid (u : Option Uuid)
  | grid (g : Option GridId)
  | bits (s : Option BitSet)
  /-- a dynamic value, which travels as a byte string of its own -/
  | value (v : Value)
  /-- a value of a host type, which travels as a byte string of its own -/
  | object (t : HostType) (x : t.Val)
  | message (m : Option Message)
  | list (items : Option (List Item))
  | map (entries : Option (List (Item × Item)))
  /-- a field that is never ready, for sessions that have to wait -/
  | stuck
  /-- a field that tells where it was written and read: the depth and the room or the bytes left,
  on either side -/
  | probe (readings : List Nat)
  /-- a field that is neither written nor read: what it holds in a new message, and its content -/
  | skipped (initial content : Field)

/-- A message. -/
inductive Message where
  | mk (type : UInt8) (fields : List Field)

end

/-- Whether a field is written and read. -/
def Field.isSent : Field → Bool
  | skipped _ _ => false
  | _ => true

namespace Message

/-- The type byte of a message. -/
def type : Message → UInt8
  | mk type _ => type

/-- The fields of a message. -/
def fields : Message → List Field
  | mk _ fields => fields

/-- The fields that are written, in order. The index of a field is its place among them. -/
def sent (m : Message) : List Field := m.fields.filter Field.isSent

theorem mem_fields_of_mem_sent {m : Message} {f : Field} (h : f ∈ m.sent) : f ∈ m.fields :=
  (List.mem_filter.mp h).1

/-- The type byte that stands for no message. -/
def nullType : UInt8 := 0xFF

end Message

instance : Inhabited Message := ⟨.mk 0 []⟩

namespace Item

/-- Whether two items are the same key. Messages are no keys. -/
def sameKey : Item → Item → Bool
  | primitive k x, primitive k' y => if h : k = k' then bits k' (h ▸ x) == bits k' y else false
  | char c, char d => c == d
  | text s, text t => s == t
  | uuid u, uuid v => u == v
  | grid g, grid h => g == h
  | _, _ => false
where
  /-- The bits of a fixed-width value. -/
  bits (k : Primitive) (x : k.Val) : Bytes := k.encode x

/-- The order of keys: numbers by their value, texts by code points, ids by their octets. -/
def compare : Item → Item → Ordering
  | primitive .bool x, primitive .bool y => Ord.compare x y
  | primitive (.int _ s) x, primitive (.int _ _) y => Ord.compare (s.read x) (s.read y)
  | char c, char d => Ord.compare c.toNat d.toNat
  | text s, text t => Ord.compare s t
  | uuid u, uuid v => u.compare v
  | grid g, grid h => g.compare h
  | _, _ => .eq

/-- The entries of a map in ascending order of their keys. -/
def ascending (entries : List (Item × Item)) : List (Item × Item) :=
  entries.mergeSort fun a b => (compare a.1 b.1).isLE

/-- Whether an item is of fixed width. -/
def isPrimitive : Item → Bool
  | primitive _ _ => true
  | _ => false

/-- The items that the words of a bit set are. -/
def ofWord (w : BitVec 64) : Item := .primitive (.int .w64 .unsigned) w

/-- The word of a bit set that an item is. -/
def word? : Item → Option (BitVec 64)
  | primitive (.int .w64 .unsigned) w => some w
  | _ => none

end Item

end WireCodec
