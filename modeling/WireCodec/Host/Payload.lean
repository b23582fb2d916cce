import WireCodec.Error
import WireCodec.Host.HostType
import WireCodec.Text.Utf8

/-!
The payload of a structured object: the content of a value of the host's own types, in a form that
is up to a library (`PayloadCodec`). One such form is given here, a compact one without tags.
Numbers have their fixed width; lengths take eight bytes and choices four; an optional content has
a byte in front that tells whether it is there. Bytes after a payload are ignored.
-/

namespace WireCodec

/-- What turns the values of host types into payloads and back. Either way may fail, with a text
that tells the cause; dynamic values, which have a form of their own, are refused. -/
structure PayloadCodec where
  encode : (t : HostType) → t.Val → Except String Bytes
  decode : (t : HostType) → Bytes → Except String t.Val
  encode_value (v : Value) : (encode .value v).isOk = false

namespace HostType

variable (payloads : PayloadCodec) (t : HostType)

/-- The payload of a value. -/
def encodePayload (x : t.Val) : Except Error Bytes := (payloads.encode t x).mapError .noPayloadForm

/-- The value that a payload is. -/
def decodePayload (payload : Bytes) : Except Error t.Val :=
  (payloads.decode t payload).mapError .malformedPayload

theorem encodePayload_value_ne_ok (v : Value) (bs : Bytes) :
    HostType.value.encodePayload payloads v ≠ .ok bs := by
  have h := payloads.encode_value v
  intro hbs
  rw [encodePayload] at hbs
  cases hcode : payloads.encode .value v with
  | ok bs => rw [hcode] at h; cases h
  | error cause => rw [hcode] at hbs; cases hbs

end HostType

namespace Payload

/-- A length, in eight bytes. -/
def length (n : Nat) : Bytes := LittleEndian.toBytes 8 n

/-- The place of a content among those it was chosen from, in four bytes. -/
def place (i : Nat) : Bytes := LittleEndian.toBytes 4 i

/-- A byte string with its length. -/
def counted (bs : Bytes) : Bytes := length bs.length ++ bs

/-- The bytes of all elements, if each has a form. -/
def each {α : Type} (f : α → Option Bytes) : List α → Option Bytes
  | [] => some []
  | x :: xs => do
    let b ← f x
    let bs ← each f xs
    return b ++ bs

/-- The bytes of a list: the number of elements, then the elements. -/
def list {α : Type} (f : α → Option Bytes) (xs : List α) : Option Bytes :=
  (each f xs).map (length xs.length ++ ·)

/-- A reader of payloads, which tells no cause when it fails. -/
abbrev Read := StateT Bytes Option

namespace Read

/-- Fails. -/
def fail {α : Type} : Read α := fun _ => none

/-- The next `n` bytes. -/
def take (n : Nat) : Read Bytes := fun bs =>
  if bs.shorterThan n then none else some (bs.splitAt n)

/-- The next number of a fixed number of bytes. -/
def number (size : Nat) : Read Nat := LittleEndian.ofBytes <$> take size

/-- The next byte string with its length. -/
def counted : Read Bytes := number 8 >>= take

/-- `n` contents one after the other. -/
def many {α : Type} (r : Read α) : Nat → Read (List α)
  | 0 => return []
  | n + 1 => do
    let x ← r
    let xs ← many r n
    return x :: xs

/-- The next list. -/
def list {α : Type} (r : Read α) : Read (List α) := number 8 >>= many r

/-- The next text that a byte string is, where it is one. -/
def text : Read String := do
  match Utf8.decode? (← counted) with
  | some s => return s
  | none => fail

/-- The number of bytes of the character that begins with this byte, if one does. -/
def charWidth (b : Nat) : Option Nat :=
  if b < 0x80 then some 1
  else if 0xC2 ≤ b ∧ b < 0xE0 then some 2
  else if 0xE0 ≤ b ∧ b < 0xF0 then some 3
  else if 0xF0 ≤ b ∧ b < 0xF5 then some 4
  else none

/-- The next character. -/
def char : Read Char := do
  let first ← take 1
  match charWidth (LittleEndian.ofBytes first) with
  | none => fail
  | some n =>
    let rest ← take (n - 1)
    match (Utf8.decode? (first ++ rest)).map String.toList with
    | some [c] => return c
    | _ => fail

end Read

end Payload

/-- The payload form of a key. -/
def KeyKind.payload : (k : KeyKind) → k.Val → Bytes
  | .bool, x => Primitive.encode .bool x
  | .int w s, x => Primitive.encode (.int w s) x
  | .char, c => Utf8.encode (String.singleton c)
  | .text, s => Payload.counted (Utf8.encode s)
  | .uuid, u => Payload.counted u.octets

/-- Reads a key from a payload. -/
def KeyKind.ofPayload : (k : KeyKind) → Payload.Read k.Val
  | .bool => do
    match ← Payload.Read.number 1 with
    | 0 => return false
    | 1 => return true
    | _ => Payload.Read.fail
  | .int w s => Primitive.decode (.int w s) <$> Payload.Read.take w.size
  | .char => Payload.Read.char
  | .text => Payload.Read.text
  | .uuid => do
    let bs ← Payload.Read.counted
    if bs.length = 16 then return Uuid.ofOctets bs else Payload.Read.fail

mutual

/-- The payload form of a value. Dynamic values, and scalars that only the tagged form knows,
have none. -/
def HostType.payload : (t : HostType) → t.Val → Option Bytes
  | .primitive k, x => some (k.encode x)
  | .char, c => some (Utf8.encode (String.singleton c))
  | .scalar .text, s => some (Payload.counted (Utf8.encode s))
  | .scalar .uuid, u => some (Payload.counted u.octets)
  | .scalar _, _ => none
  | .unit, _ => some []
  | .value, _ => none
  | .object, _ => none
  | .option _, none => some [0]
  | .option t, some x => (t.payload x).map (1 :: ·)
  | .list t, xs => Payload.list t.payload xs
  | .deque t, xs => Payload.list t.payload xs
  | .set sorted k, xs => Payload.list (fun x => some (k.payload x)) (k.iterate sorted xs)
  | .map sorted k t, es =>
    Payload.list (fun (x, y) => (t.payload y).map (k.payload x ++ ·)) (k.iterateEntries sorted es)
  | .pair a b, (x, y) => do
    let first ← a.payload x
    let second ← b.payload y
    return first ++ second
  | .enumeration _ _, i => some (Payload.place i)
  | .record _ content, x => content.payload x
  | .choice arms, x => arms.payload 0 x

/-- The payload form of a value of a choice whose first content has place `i`. -/
def HostArms.payload : (arms : HostArms) → Nat → arms.Val → Option Bytes
  | .last t, i, x => (t.payload x).map (Payload.place i ++ ·)
  | .more t _, i, .inl x => (t.payload x).map (Payload.place i ++ ·)
  | .more _ rest, i, .inr y => rest.payload (i + 1) y

end

mutual

/-- Reads a value from a payload. -/
def HostType.ofPayload : (t : HostType) → Payload.Read t.Val
  | .primitive .bool => KeyKind.ofPayload .bool
  | .primitive k => k.decode <$> Payload.Read.take k.size
  | .char => Payload.Read.char
  | .scalar .text => Payload.Read.text
  | .scalar .uuid => KeyKind.ofPayload .uuid
  | .scalar _ => Payload.Read.fail
  | .unit => return ()
  | .value => Payload.Read.fail
  | .object => Payload.Read.fail
  | .option t => do
    match ← Payload.Read.number 1 with
    | 0 => return none
    | 1 => some <$> t.ofPayload
    | _ => Payload.Read.fail
  | .list t => Payload.Read.list t.ofPayload
  | .deque t => Payload.Read.list t.ofPayload
  | .set _ k => k.ofList <$> Payload.Read.list k.ofPayload
  | .map _ k t => k.ofEntries <$> Payload.Read.list (do
    let x ← k.ofPayload
    let y ← t.ofPayload
    return (x, y))
  | .pair a b => do
    let x ← a.ofPayload
    let y ← b.ofPayload
    return (x, y)
  | .enumeration _ e => do
    let i ← Payload.Read.number 4
    if h : i < e.constants.length then return ⟨i, h⟩ else Payload.Read.fail
  | .record _ content => content.ofPayload
  | .choice arms => Payload.Read.number 4 >>= arms.ofPayload

/-- Reads the content at a place of a choice. -/
def HostArms.ofPayload : (arms : HostArms) → Nat → Payload.Read arms.Val
  | .last t, 0 => t.ofPayload
  | .last _, _ + 1 => Payload.Read.fail
  | .more t _, 0 => Sum.inl <$> t.ofPayload
  | .more _ rest, i + 1 => Sum.inr <$> rest.ofPayload i

end

/-- The codec of this form, which tells no cause when it fails. -/
def PayloadCodec.compact : PayloadCodec where
  encode t x :=
    match t.payload x with
    | some bs => .ok bs
    | none => .error "no form"
  decode t payload :=
    match t.ofPayload.run payload with
    | some (x, _) => .ok x
    | none => .error "no such value"
  encode_value _ := rfl

instance : Inhabited PayloadCodec := ⟨.compact⟩

end WireCodec
