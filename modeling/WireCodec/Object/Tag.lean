import WireCodec.Primitive

/-!
Wire tags. A tag is the byte in front of every encoded value; it tells the form of what follows.
Both signs of an integer share one tag. `Tag.ofByte?_toByte` says that a tag is found again from
its byte.
-/

namespace WireCodec

/-- The scalar kinds that have a layout of their own and whose arrays may hold absent elements. -/
inductive Scalar where
  | text
  | uuid
  | decimal
  | timestamp
  | constant
  deriving DecidableEq, Repr, Inhabited

/-- What an encoded value begins with. -/
inductive Tag where
  | null
  | one (f : Form)
  | array (f : Form)
  | scalar (s : Scalar)
  | scalarArray (s : Scalar)
  | objectArray
  | collection
  | map
  | mapEntry
  | object
  deriving DecidableEq, Repr, Inhabited

namespace Tag

/-- The byte of a tag. -/
def toByte : Tag → UInt8
  | one (.int .w8) => 1
  | one (.int .w16) => 2
  | one (.int .w32) => 3
  | one (.int .w64) => 4
  | one .float => 5
  | one .double => 6
  | one .unit => 7
  | one .bool => 8
  | scalar .text => 9
  | scalar .uuid => 10
  | array (.int .w8) => 12
  | array (.int .w16) => 13
  | array (.int .w32) => 14
  | array (.int .w64) => 15
  | array .float => 16
  | array .double => 17
  | array .unit => 18
  | array .bool => 19
  | scalarArray .text => 20
  | scalarArray .uuid => 21
  | objectArray => 23
  | collection => 24
  | map => 25
  | mapEntry => 26
  | scalar .constant => 28
  | scalarArray .constant => 29
  | scalar .decimal => 30
  | scalarArray .decimal => 31
  | scalar .timestamp => 33
  | scalarArray .timestamp => 34
  | null => 101
  | object => 103

/-- All tags, in the order of their bytes. -/
def all : List Tag :=
  [one (.int .w8), one (.int .w16), one (.int .w32), one (.int .w64), one .float, one .double,
    one .unit, one .bool, scalar .text, scalar .uuid,
    array (.int .w8), array (.int .w16), array (.int .w32), array (.int .w64), array .float,
    array .double, array .unit, array .bool, scalarArray .text, scalarArray .uuid,
    objectArray, collection, map, mapEntry,
    scalar .constant, scalarArray .constant, scalar .decimal, scalarArray .decimal,
    scalar .timestamp, scalarArray .timestamp, null, object]

/-- The tag with the given byte, if there is one. -/
def ofByte? (b : UInt8) : Option Tag := all.find? (·.toByte == b)

/-- The name of a tag. -/
def name : Tag → String
  | one (.int .w8) => "BYTE"
  | one (.int .w16) => "SHORT"
  | one (.int .w32) => "INT"
  | one (.int .w64) => "LONG"
  | one .float => "FLOAT"
  | one .double => "DOUBLE"
  | one .unit => "CHAR"
  | one .bool => "BOOLEAN"
  | scalar .text => "STRING"
  | scalar .uuid => "UUID"
  | array (.int .w8) => "BYTE_ARR"
  | array (.int .w16) => "SHORT_ARR"
  | array (.int .w32) => "INT_ARR"
  | array (.int .w64) => "LONG_ARR"
  | array .float => "FLOAT_ARR"
  | array .double => "DOUBLE_ARR"
  | array .unit => "CHAR_ARR"
  | array .bool => "BOOLEAN_ARR"
  | scalarArray .text => "STRING_ARR"
  | scalarArray .uuid => "UUID_ARR"
  | objectArray => "OBJ_ARR"
  | collection => "COL"
  | map => "MAP"
  | mapEntry => "MAP_ENTRY"
  | scalar .constant => "ENUM"
  | scalarArray .constant => "ENUM_ARR"
  | scalar .decimal => "DECIMAL"
  | scalarArray .decimal => "DECIMAL_ARR"
  | scalar .timestamp => "TIMESTAMP"
  | scalarArray .timestamp => "TIMESTAMP_ARR"
  | null => "NULL"
  | object => "OBJ"

/-- The name of the tag with the given byte. -/
def nameOfByte (b : UInt8) : String := ((ofByte? b).map name).getD "UNKNOWN"

/-- Whether values with this tag have a reader of their own: all but null, which has no content,
and structured objects, whose content is kept unread. -/
def hasReader : Tag → Bool
  | null | object => false
  | _ => true

/-- Whether the tag with the given byte has a reader of its own. -/
def byteHasReader (b : UInt8) : Bool := ((ofByte? b).map hasReader).getD false

theorem ofByte?_toByte (t : Tag) : ofByte? t.toByte = some t := by
  cases t with
  | one f => cases f with
    | int w => cases w <;> rfl
    | _ => rfl
  | array f => cases f with
    | int w => cases w <;> rfl
    | _ => rfl
  | scalar s => cases s <;> rfl
  | scalarArray s => cases s <;> rfl
  | _ => rfl

theorem toByte_of_ofByte? {b : UInt8} {t : Tag} (h : ofByte? b = some t) : t.toByte = b := by
  simpa using List.find?_some h

end Tag

end WireCodec
