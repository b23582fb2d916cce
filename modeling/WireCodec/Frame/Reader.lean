import WireCodec.Cursor
import WireCodec.Frame.Layout
import WireCodec.Frame.Schema
import WireCodec.Frame.Stack
import WireCodec.Marshal.Marshaller

/-!
Reading messages from buffers. A step takes the units that are there and stops where the next one
is not; the frame of each level keeps the fields that are read and what is known of the next one.
Bytes that a step does not take have to be presented again with the next ones.
-/

namespace WireCodec

/-- A list or a map that is being read, with the kinds of its items. -/
inductive Container where
  | items (kind : ItemKind) (xs : Array Item)
  | entries (key value : ItemKind) (es : Array (Item × Item))

namespace Container

/-- A list of items of a kind, before the first. -/
def ofItems (kind : ItemKind) : Container := items kind.erased #[]

/-- A map between items of two kinds, before the first entry. -/
def ofEntries (key value : ItemKind) : Container := entries key.erased value.erased #[]

/-- The items, if this is a list of items of a kind. -/
def items? (kind : ItemKind) : Container → Option (Array Item)
  | items k xs => if k = kind.erased then some xs else none
  | entries _ _ _ => none

/-- The entries, if this is a map between items of two kinds. -/
def entries? (key value : ItemKind) : Container → Option (Array (Item × Item))
  | items _ _ => none
  | entries k v es => if k = key.erased ∧ v = value.erased then some es else none

@[simp] theorem items?_items (kind : ItemKind) (xs : Array Item) :
    (items kind.erased xs).items? kind = some xs := if_pos rfl

@[simp] theorem entries?_entries (key value : ItemKind) (es : Array (Item × Item)) :
    (entries key.erased value.erased es).entries? key value = some es := if_pos ⟨rfl, rfl⟩

end Container

/-- What is set aside of an item that is not read to its end. -/
inductive Parked where
  /-- the node of a grid id whose counter is still to come -/
  | node (u : Uuid)
  /-- a message of this type, whose fields are in the frame below -/
  | message (s : Schema)

/-- How far the field in flight is read. -/
structure ReadProgress where
  /-- whether the length of a list or map is read -/
  started : Bool
  /-- that length -/
  expected : Nat
  /-- the number of items read -/
  index : Nat
  /-- the items read -/
  container : Option Container
  /-- the key of the entry whose value is being read -/
  key : Option Item
  /-- whether the length of a byte string is read -/
  headDone : Bool
  /-- that length -/
  length : Nat
  /-- the bytes read of it -/
  gathered : Array UInt8
  parked : Option Parked
  deriving Inhabited

/-- The state of one level of reading. -/
structure ReadFrame where
  /-- the fields read, of those that are sent -/
  fields : List Field
  progress : ReadProgress
  deriving Inhabited

/-- The frames, and the bytes that are being read. -/
structure Reader where
  stack : FrameStack ReadFrame
  cursor : ReadCursor

/-- What reading depends on beside the bytes. -/
structure ReadContext where
  marshaller : Marshaller
  catalog : Catalog
  factories : Factories

/-- A step of reading, which may stop early and keeps what it has done until then. -/
abbrev Read := EStateM (Stop Error) Reader

namespace Read

/-- Stops with an error. -/
def fail {α : Type} (e : Error) : Read α := throw (.failed e)

/-- The result of a computation, or its error. -/
def lift {α : Type} : Except Error α → Read α
  | .ok x => return x
  | .error e => fail e

/-- How far the field in flight is read. -/
def progress : Read ReadProgress := do return (← get).stack.current.progress

/-- Changes the current frame. -/
def modifyFrame (f : ReadFrame → ReadFrame) : Read Unit :=
  modify fun r => { r with stack := r.stack.modify f }

/-- Changes how far the field in flight is read. -/
def modifyProgress (f : ReadProgress → ReadProgress) : Read Unit :=
  modifyFrame fun frame => { frame with progress := f frame.progress }

/-- What a step of the cursor gives, once all of it is there. -/
def advance {α : Type} (step : ReadCursor → Option (α × ReadCursor)) : Read α := do
  let r ← get
  match step r.cursor with
  | some (x, cursor) => do
    set { r with cursor }
    return x
  | none => throw .suspended

/-- The next value of a fixed-width kind. -/
def primitive (k : Primitive) : Read k.Val := advance (·.take? k)

/-- The next byte. -/
def byte : Read UInt8 := do
  let x : BitVec 8 ← primitive (.int .w8 .unsigned)
  return UInt8.ofBitVec x

/-- The next length, or none for the null length. -/
def length (limit : Nat) : Read (Option Nat) := do
  let x : BitVec 32 ← primitive (.int .w32 .signed)
  if x.toInt = Layout.nullLength then return none
  some <$> lift (Layout.checkLength limit x.toInt)

/-- The value of a field that may not be null. -/
def required {α : Type} (what : Required) : Option α → Read α
  | some x => return x
  | none => fail (.nullRequired what)

/-- What the absence of a list or a map means. -/
def absence {α : Type} (what : Required) : Absence → Option (List α) → Read (Option (List α))
  | .refused, xs => some <$> required what xs
  | .kept, xs => return xs
  | .emptied, xs => return some (xs.getD [])

/-- The value of a field that may be null only if it is optional. -/
def optional {α : Type} (what : Required) (isOptional : Bool) (x : Option α) : Read (Option α) :=
  if isOptional then return x else some <$> required what x

/-- The next character, one UTF-16 unit. -/
def char : Read Char := do
  let u : BitVec 16 ← primitive .unit
  match Utf16.charOfUnit? u with
  | some c => return c
  | none => fail (.unpairedUnit u.toNat)

/-- The next byte string, or none for the null length. -/
def bytes (limit : Nat) : Read (Option Bytes) := do
  unless (← progress).headDone do
    match ← length limit with
    | none => return none
    | some n => modifyProgress fun p => { p with headDone := true, length := n }
  let p ← progress
  let wanted := p.length - p.gathered.size
  let r ← get
  let (taken, cursor) := r.cursor.takePartial wanted
  set { r with cursor }
  modifyProgress fun p => { p with gathered := p.gathered ++ taken }
  if taken.length < wanted then throw .suspended
  let gathered := (← progress).gathered
  modifyProgress fun p => { p with headDone := false, length := 0, gathered := #[] }
  return some gathered.toList

/-- The next text, or none for the null length. -/
def text (limit : Nat) : Read (Option String) := do
  match ← bytes limit with
  | none => return none
  | some bs =>
    match Utf8.decode? bs with
    | some s => return some s
    | none => fail (.malformedFieldText (Utf8.fault bs))

/-- The next sixteen bytes, as an id. -/
def uuid : Read Uuid := do return Layout.ofUuid (← advance (·.takeExact? 16))

/-- The next id, or none. The byte in front of it is looked at before it is taken. -/
def nullableUuid : Read (Option Uuid) := do
  match (← get).cursor.rest with
  | [] => throw .suspended
  | marker :: _ =>
    if marker = Layout.absent then
      modify fun r => { r with cursor := r.cursor.advance 1 }
      return none
    else if marker = Layout.present then
      let unit ← advance (·.takeExact? maxAtomicUnit)
      return some (Layout.ofUuid (unit.drop 1))
    else fail (.presenceMarker marker)

/-- What was set aside in the current frame, which is emptied. -/
def takeParked : Read (Option Parked) := do
  let parked := (← progress).parked
  modifyProgress fun p => { p with parked := none }
  return parked

/-- The next grid id, or none. Its node is set aside until its counter is there. -/
def grid : Read (Option GridId) := do
  let node ← match ← takeParked with
    | some (.node u) => pure (some u)
    | some (.message _) => fail .unexpectedProgress
    | none => nullableUuid
  match node with
  | none => return none
  | some u =>
    let r ← get
    match r.cursor.take? (.int .w64 .signed) with
    | some (x, cursor) =>
      set { r with cursor }
      return some ⟨u, Int64.ofBitVec x⟩
    | none =>
      modifyProgress fun p => { p with parked := some (.node u) }
      throw .suspended

/-- Reads the number of items once and sets an empty container up; tells whether there is one. -/
def beginContainer (limit : Nat) (empty : Container) : Read Bool := do
  if (← progress).started then return true
  match ← length limit with
  | none => return false
  | some n =>
    modifyProgress fun p => { p with started := true, expected := n, container := some empty }
    return true

/-- Adds an item to the list in the current frame. -/
def pushItem (kind : ItemKind) (x : Item) : Read Unit := do
  match (← progress).container.bind (·.items? kind) with
  | some xs =>
    modifyProgress fun p => { p with container := some (.items kind.erased (xs.push x)) }
  | none => fail .unexpectedProgress

/-- The entries of a map with one more, in place of the one with the same key. -/
def insertEntry (es : Array (Item × Item)) (key value : Item) : Array (Item × Item) :=
  match es.findIdx? fun e => e.1.sameKey key with
  | some i => es.modify i fun e => (e.1, value)
  | none => es.push (key, value)

/-- Adds an entry to the map in the current frame. -/
def pushEntry (key value : ItemKind) (k v : Item) : Read Unit := do
  match (← progress).container.bind (·.entries? key value) with
  | some es =>
    let es := insertEntry es k v
    modifyProgress fun p => { p with container := some (.entries key.erased value.erased es) }
  | none => fail .unexpectedProgress

/-- Takes the key that was set aside out of the current frame. -/
def takeKey (kind : ItemKind) : Read Item := do
  let key := (← progress).key
  modifyProgress fun p => { p with key := none }
  match key with
  | some k => if k.kind = kind.erased then return k else fail .unexpectedProgress
  | none => fail .unexpectedProgress

/-- Counts an item as read. -/
def itemDone : Read Unit := modifyProgress fun p => { p with index := p.index + 1, key := none }

/-- Takes the list out of the current frame. -/
def finishItems (kind : ItemKind) : Read (List Item) := do
  let container := (← progress).container
  modifyProgress fun p => { p with container := none }
  match container.bind (·.items? kind) with
  | some xs => return xs.toList
  | none => fail .unexpectedProgress

/-- Takes the map out of the current frame. -/
def finishEntries (key value : ItemKind) : Read (List (Item × Item)) := do
  let container := (← progress).container
  modifyProgress fun p => { p with container := none }
  match container.bind (·.entries? key value) with
  | some es => return es.toList
  | none => fail .unexpectedProgress

/-- Reads a message one level down. Where it stops for want of bytes, its type is set aside. -/
def descend (read : Schema → Read Message) (s : Schema) : Read Message := fun r =>
  match read s { r with stack := r.stack.descend } with
  | .ok m r => .ok m { r with stack := r.stack.ascend true }
  | .error (.failed e) r => .error (.failed e) { r with stack := r.stack.ascend false }
  | .error .suspended r =>
    let park (frame : ReadFrame) : ReadFrame :=
      { frame with progress := { frame.progress with parked := some (.message s) } }
    .error .suspended { r with stack := (r.stack.ascend false).modify park }

/-- The type of the message with a type byte: the one that the field is for, or the registered
one where it is for any. -/
def schemaFor (ctx : ReadContext) (wanted : Option UInt8) (type : UInt8) : Read Schema :=
  match wanted with
  | some t => if t = type then return ctx.catalog.schema t else fail (.otherMessage t type)
  | none =>
    match ctx.factories.find? type with
    | some s => return s
    | none => fail (.noFactory type)

section

variable (ctx : ReadContext) (nested : Schema → Read Message)

/-- The next message, or none for the null message. A message that was set aside is gone on with if
the field takes messages of its type. -/
def message (wanted : Option UInt8) : Read (Option Message) := do
  match ← takeParked with
  | some (.message s) =>
    if wanted.all (· == s.type) then some <$> nested s else fail .unexpectedProgress
  | some (.node _) => fail .unexpectedProgress
  | none =>
    let type ← byte
    if type = Message.nullType then return none
    let s ← schemaFor ctx wanted type
    some <$> nested s

/-- The next item. -/
def item : ItemKind → Read Item
  | .primitive k => .primitive k <$> primitive k
  | .char => .char <$> char
  | .text => do
    let s ← text ctx.marshaller.config.maxArrayLength
    .text <$> required .textElement s
  | .uuid => .uuid <$> uuid
  | .grid => do
    let g ← grid
    .grid <$> required .gridIdElement g
  | .message wanted => do
    match ← message ctx nested wanted with
    | some m => return .message m
    | none => fail (if wanted.isSome then .nullMessageElement else .nullRequired .messageElement)

/-- Reads so many more items of a list. -/
def items (kind : ItemKind) : Nat → Read Unit
  | 0 => return
  | n + 1 => do
    pushItem kind (← item ctx nested kind)
    itemDone
    items kind n

/-- Reads so many more entries of a map. -/
def entries (key value : ItemKind) : Nat → Read Unit
  | 0 => return
  | n + 1 => do
    if (← progress).key.isNone then
      let k ← item ctx nested key
      modifyProgress fun p => { p with key := some k }
    let v ← item ctx nested value
    let k ← takeKey key
    pushEntry key value k v
    itemDone
    entries key value n

/-- The next list, or none for the null length. -/
def list (kind : ItemKind) : Read (Option (List Item)) := do
  if ← beginContainer ctx.marshaller.config.maxArrayLength (.ofItems kind) then
    let p ← progress
    items ctx nested kind (p.expected - p.index)
    some <$> finishItems kind
  else return none

/-- The next map, or none for the null length. -/
def map (key value : ItemKind) : Read (Option (List (Item × Item))) := do
  if ← beginContainer ctx.marshaller.config.maxArrayLength (.ofEntries key value) then
    let p ← progress
    entries ctx nested key value (p.expected - p.index)
    some <$> finishEntries key value
  else return none

/-- The next field. -/
def field : FieldKind → Read Field
  | .primitive k => .primitive k <$> primitive k
  | .char => .char <$> char
  | .text isOptional => do
    let s ← text ctx.marshaller.config.maxArrayLength
    .text <$> optional .text isOptional s
  | .bytes isOptional => do
    let bs ← bytes ctx.marshaller.config.maxArrayLength
    .bytes <$> optional .byteArray isOptional bs
  | .uuid isOptional => do
    let u ← nullableUuid
    .uuid <$> optional .uuid isOptional u
  | .grid isOptional => do
    let g ← grid
    .grid <$> optional .gridId isOptional g
  | .bits isOptional => do
    let words ← list ctx nested (.primitive (.int .w64 .unsigned))
    let s := words.map fun ws => BitSet.ofWords (ws.filterMap Item.word?)
    .bits <$> optional .bitSet isOptional s
  | .value => do
    match ← bytes ctx.marshaller.config.maxArrayLength with
    | some bs => .value <$> lift (ctx.marshaller.unmarshalValue bs)
    | none => return .value .null
  | .object t => do
    match ← bytes ctx.marshaller.config.maxArrayLength with
    | some bs => .object t <$> lift (ctx.marshaller.unmarshal t bs)
    | none => .object t <$> lift (t.ofValue ctx.marshaller.payloads .null)
  | .message wanted => .message <$> message ctx nested wanted
  | .list kind a => do
    let xs ← list ctx nested kind
    .list <$> absence .array a xs
  | .map key value a => do
    let es ← map ctx nested key value
    .map <$> absence .map a es
  | .stuck => throw .suspended
  | .probe => do
    let x : BitVec 32 ← primitive (.int .w32 .unsigned)
    let r ← get
    return .probe [x.toNat / 65536, x.toNat % 65536, r.stack.depth, r.cursor.remaining]
  | .skipped initial => return .skipped initial initial

/-- Reads the fields that are not read yet. -/
def fields : List FieldKind → Read Unit
  | [] => return
  | k :: ks => do
    let f ← field ctx nested k
    modifyFrame fun frame => { fields := frame.fields ++ [f], progress := default }
    fields ks

/-- Reads what is not read yet of a message, and gives the message. -/
def body (s : Schema) : Read Message := do
  fields ctx nested (s.sent.drop (← get).stack.current.fields.length)
  return s.build (← get).stack.current.fields

end

/-- Reads a message that may have messages nested in it to a depth of `levels`. -/
def root (ctx : ReadContext) : (levels : Nat) → Schema → Read Message
  | 0, s =>
    body ctx (fun _ => fail (.messageNesting ctx.marshaller.config.maxNestingDepth)) s
  | levels + 1, s => body ctx (descend (root ctx levels)) s

end Read

end WireCodec
