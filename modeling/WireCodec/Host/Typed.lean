import WireCodec.Host.Payload
import WireCodec.Host.Request

/-!
Between dynamic values and values of host types: what a dynamic value is as a value of a type
(`HostType.ofValue`), and the dynamic value that a value of a type with a fixed form counts as
(`HostType.toValue?`).
-/

namespace WireCodec

/-- A value of another kind than was asked for. -/
def Value.mismatch {α : Type} (expected : String) (v : Value) : Except Error α :=
  .error (.unexpectedKind expected v.kind)

/-- The elements of a sequence. -/
def Value.sequence (v : Value) : Except Error (List Value) :=
  match v.elements? with
  | some xs => .ok xs
  | none => v.mismatch "a sequence"

/-- The entries of a map. -/
def Value.entries : Value → Except Error (List (Value × Value))
  | .map _ entries => .ok entries
  | v => v.mismatch "a map"

/-- The value of a fixed-width kind that a dynamic value is. -/
def Primitive.ofValue (k : Primitive) : Value → Except Error k.Val
  | .primitive k' x => if h : k' = k then .ok (h ▸ x) else (Value.primitive k' x).mismatch k.name
  | v => v.mismatch k.name

/-- The scalar that a dynamic value is. -/
def Scalar.ofValue (s : Scalar) : Value → Except Error s.Val
  | .scalar s' x => if h : s' = s then .ok (h ▸ x) else (Value.scalar s' x).mismatch s.expected
  | v => v.mismatch s.expected

/-- The character that a dynamic value is. -/
def Value.char : Value → Except Error Char
  | .primitive .unit u =>
    match Utf16.charOfUnit? u with
    | some c => .ok c
    | none => .error (.halfPair u.toNat)
  | v => v.mismatch "char"

/-- The key that a dynamic value is. -/
def KeyKind.ofValue : (k : KeyKind) → Value → Except Error k.Val
  | .bool, v => Primitive.ofValue .bool v
  | .int w s, v => Primitive.ofValue (.int w s) v
  | .char, v => v.char
  | .text, v => Scalar.ofValue .text v
  | .uuid, v => Scalar.ofValue .uuid v

namespace HostType

section

variable (payloads : PayloadCodec)

/-- The value of a type that a dynamic value is. The first element that does not fit is the one
that is told; in a map a key is looked at before its value. -/
def ofValue : (t : HostType) → Value → Except Error t.Val
  | primitive k, v => k.ofValue v
  | char, v => v.char
  | scalar s, v => s.ofValue v
  | unit, v => if v.isNull then .ok () else v.mismatch "null"
  | value, v => .ok v
  | object, v =>
    match v with
    | .object o => .ok o
    | v => v.mismatch "BinaryObject"
  | option t, v => if v.isNull then .ok none else some <$> t.ofValue v
  | list t, v => do (← v.sequence).mapM t.ofValue
  | deque t, v => do (← v.sequence).mapM t.ofValue
  | set _ k, v => do return k.ofList (← (← v.sequence).mapM k.ofValue)
  | map _ k t, v => do
    let entries ← (← v.entries).mapM fun (x, y) => do
      let x ← k.ofValue x
      let y ← t.ofValue y
      return (x, y)
    return k.ofEntries entries
  | pair a b, v =>
    match v with
    | .mapEntry x y => do
      let x ← a.ofValue x
      let y ← b.ofValue y
      return (x, y)
    | v => v.mismatch "a map entry"
  | enumeration name e, v => structured (enumeration name e) v
  | record name content, v => structured (record name content) v
  | choice arms, v => structured (choice arms) v
where
  /-- The value that the payload of a structured object is. -/
  structured (t : HostType) : Value → Except Error t.Val
    | .object o => t.decodePayload payloads o.payload
    | v => v.mismatch "a structured object"

end

/-- The dynamic value that a value of a type counts as, where the type has a fixed form. Sets and
maps are gone through in their order; a character has to be one UTF-16 unit. -/
def toValue? : (t : HostType) → t.Val → Option Value
  | primitive k, x => some (.primitive k x)
  | char, c => (Utf16.unitOfChar? c).map (.primitive .unit)
  | scalar s, x => some (.scalar s x)
  | unit, _ => some .null
  | value, v => some v
  | object, o => some (.object o)
  | list (primitive k), xs => some (.primitiveArray k xs)
  | list char, cs => (cs.mapM Utf16.unitOfChar?).map (.primitiveArray .unit)
  | list (scalar s), xs => some (.scalarArray s (xs.map some))
  | list (option (scalar .text)), xs => some (.scalarArray .text xs)
  | list value, xs => some (.objectArray xs)
  | deque value, xs => some (.collection .linkedList xs)
  | set sorted .text, xs =>
    some (.collection (if sorted then .treeSet else .hashSet)
      ((KeyKind.iterate .text sorted xs).map (.scalar .text)))
  | map sorted .text value, es =>
    some (.map (if sorted then .treeMap else .hashMap)
      ((KeyKind.iterateEntries .text sorted es).map fun (x, y) => (.scalar .text x, y)))
  | pair value value, (x, y) => some (.mapEntry x y)
  | option (primitive k), x => some ((x.map (.primitive k)).getD .null)
  | option (scalar s), x => some ((x.map (.scalar s)).getD .null)
  | _, _ => none

end HostType

end WireCodec
