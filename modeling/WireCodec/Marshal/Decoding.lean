import WireCodec.Host.Request

/-!
Reading values. The tag decides what follows, a request chooses the sign of integers, and two
limits keep hostile input in check: a length is refused when it exceeds the configured one or when
the input cannot hold so many elements, and nesting is refused below the configured depth.
-/

namespace WireCodec

/-- What a decode depends on beside its input. -/
structure DecodeLimits where
  /-- the largest number of elements, and of bytes of a payload -/
  maxLength : Nat
  /-- the largest number of containers around a value -/
  maxDepth : Nat
  /-- the id of the type under which values of a host type travel as structured objects -/
  objectTypeId : HostType → Option Int32

namespace DecodeLimits

/-- A number of elements of at least `size` bytes each, all of which the input can hold. -/
def count (l : DecodeLimits) (size : Nat) : Decode Nat := do
  let n ← Decode.length l.maxLength
  Decode.expect (n * size)
  return n

theorem count_bind {α : Type} (l : DecodeLimits) (size : Nat) (f : Nat → Decode α) :
    l.count size >>= f = Decode.length l.maxLength >>= fun n =>
      Decode.expect (n * size) >>= fun _ => f n := by
  rw [count, bind_assoc]
  refine congrArg _ (funext fun n => ?_)
  rw [bind_assoc]
  rfl

/-- Reads an element of a scalar array: its tag, then the scalar unless it is absent. -/
def scalarElement (s : Scalar) : Decode (Option s.Val) := do
  let tag ← Decode.byte
  if tag = Tag.null.toByte then return none
  else if tag = s.tag.toByte then some <$> s.decode
  else throw (.elementTag tag s.tag)

/-- Refuses a structured object of another type than the requested one. -/
def checkObject (l : DecodeLimits) (r : Request) (o : StructuredObject) : Except Error Unit :=
  match r with
  | .exact t =>
    match l.objectTypeId t with
    | some expected =>
      if expected = o.typeId then .ok () else .error (.otherObject o.typeId expected)
    | none => .ok ()
  | _ => .ok ()

/-- Reads what a tag announces; `nested` reads the values inside it. -/
def readTagged (l : DecodeLimits) (nested : Request → Decode Value) (r : Request) :
    Tag → Decode Value
  | .null => return .null
  | .one f => do
    let k ← r.primitive f
    let x ← Decode.primitive k
    return .primitive k x
  | .array f => do
    let k ← r.primitiveArray f
    let n ← l.count k.size
    let xs ← Decode.many (Decode.primitive k) n
    return .primitiveArray k xs
  | .scalar s => do
    let x ← s.decode
    return .scalar s x
  | .scalarArray s => do
    let n ← l.count 1
    let xs ← Decode.many (scalarElement s) n
    return .scalarArray s xs
  | .objectArray => do
    let n ← l.count 1
    let xs ← Decode.many (nested r.element) n
    return .objectArray xs
  | .collection => do
    let n ← l.count 1
    let flavor ← CollectionFlavor.ofCode (← Decode.int8)
    let xs ← Decode.many (nested r.element) n
    return .collection flavor xs
  | .map => do
    let n ← l.count 2
    let flavor ← MapFlavor.ofCode (← Decode.int8)
    let entries ← Decode.many (entry nested r) n
    return .map flavor entries
  | .mapEntry => do
    let (k, v) ← entry nested r
    return .mapEntry k v
  | .object => do
    let o ← StructuredObject.decode l.maxLength
    l.checkObject r o
    return .object o
where
  /-- Reads a key and then its value. -/
  entry (nested : Request → Decode Value) (r : Request) : Decode (Value × Value) := do
    let k ← nested r.key
    let v ← nested r.value
    return (k, v)

/-- Reads a tag and what it announces. -/
def readWith (l : DecodeLimits) (nested : Request → Decode Value) (r : Request) :
    Decode Value := do
  let b ← Decode.byte
  match Tag.ofByte? b with
  | some tag => l.readTagged nested r tag
  | none => throw (.unknownTag b)

/-- Reads a value that may have values nested in it to a depth of `levels`. -/
def read (l : DecodeLimits) : (levels : Nat) → Request → Decode Value
  | 0, r => l.readWith (fun _ => throw (.valueNesting l.maxDepth)) r
  | levels + 1, r => l.readWith (l.read levels) r

/-- Reads a value. -/
def readValue (l : DecodeLimits) (r : Request) : Decode Value := l.read l.maxDepth r

end DecodeLimits

end WireCodec
