import WireCodec.Cursor
import WireCodec.Frame.Layout
import WireCodec.Frame.Stack
import WireCodec.Marshal.Marshaller

/-!
Writing messages into buffers. A step writes what fits and stops where room runs out; the frame
of each level remembers how many fields are written and how far the next one is, so that writing
the message again from the top goes on where it stopped. Byte strings may be cut anywhere; all
else is written in units of at most `maxAtomicUnit` bytes.
-/

namespace WireCodec

/-- How far the field in flight is written. -/
structure WriteProgress where
  /-- whether the length of a list or map is written -/
  started : Bool
  /-- the number of items written -/
  index : Nat
  /-- whether the key of the next entry is written -/
  keyDone : Bool
  /-- whether the length of a byte string, or the first part of a grid id, is written -/
  headDone : Bool
  /-- the number of bytes of a byte string that are written -/
  offset : Nat
  /-- the bytes of a value, from when it was first reached -/
  staged : Option Bytes
  deriving DecidableEq, Inhabited

/-- The state of one level of writing. -/
structure WriteFrame where
  /-- the number of fields written -/
  completed : Nat
  /-- whether the type byte is written -/
  headerWritten : Bool
  progress : WriteProgress
  deriving DecidableEq, Inhabited

/-- The frames, and the buffer that is being filled. -/
structure Writer where
  stack : FrameStack WriteFrame
  cursor : WriteCursor

/-- A step of writing, which may stop early and keeps what it has done until then. -/
abbrev Write := EStateM (Stop Error) Writer

namespace Write

/-- Stops with an error. -/
def fail {α : Type} (e : Error) : Write α := throw (.failed e)

/-- The result of a computation, or its error. -/
def lift {α : Type} : Except Error α → Write α
  | .ok x => return x
  | .error e => fail e

/-- How far the field in flight is written. -/
def progress : Write WriteProgress := do return (← get).stack.current.progress

/-- Changes the current frame. -/
def modifyFrame (f : WriteFrame → WriteFrame) : Write Unit :=
  modify fun w => { w with stack := w.stack.modify f }

/-- Changes how far the field in flight is written. -/
def modifyProgress (f : WriteProgress → WriteProgress) : Write Unit :=
  modifyFrame fun frame => { frame with progress := f frame.progress }

/-- Writes bytes that must not be cut. -/
def put (bs : Bytes) : Write Unit := do
  let w ← get
  match w.cursor.putAll? bs with
  | some cursor => set { w with cursor }
  | none => throw .suspended

/-- Writes as many of the bytes as fit, and tells how many that were. -/
def putPartial (bs : Bytes) : Write Nat := do
  let w ← get
  let cursor := w.cursor.putPartial bs
  set { w with cursor }
  return cursor.position - w.cursor.position

/-- Writes the null length. -/
def putNull : Write Unit := put Layout.nullLengthBytes

/-- Writes a byte string after its length. -/
def putChunk (bs : Bytes) : Write Unit := do
  unless (← progress).headDone do
    put (← lift (Layout.length bs.length))
    modifyProgress fun p => { p with headDone := true }
  let offset := (← progress).offset
  if bs.length < offset then fail .fieldChanged
  let n ← putPartial (bs.drop offset)
  modifyProgress fun p => { p with offset := offset + n }
  if offset + n < bs.length then throw .suspended
  modifyProgress fun p => { p with headDone := false, offset := 0, staged := none }

/-- Writes a byte string, or the null length. -/
def putBytes : Option Bytes → Write Unit
  | some bs => putChunk bs
  | none => putNull

/-- Writes a character as one UTF-16 unit. -/
def putChar (c : Char) : Write Unit := do put (← lift (Encode.char c))

/-- Writes a grid id: its node like an id that may be absent, then its counter. -/
def putGrid (g : Option GridId) : Write Unit := do
  if !(← progress).headDone then
    put (Layout.nullableUuid (g.map GridId.node))
    if g.isSome then modifyProgress fun p => { p with headDone := true }
    else return
  match g with
  | none => fail .fieldChanged
  | some g =>
    put (Encode.int64 g.counter.toBitVec)
    modifyProgress fun p => { p with headDone := false }

/-- Writes a value as a byte string. It is encoded when it is first reached, and what came out
then is what is written. -/
def putStaged (encoded : Except Error Bytes) : Write Unit := do
  let bs ← match (← progress).staged with
    | some bs => pure bs
    | none => do
      let bs ← lift encoded
      modifyProgress fun p => { p with staged := some bs }
      pure bs
  putChunk bs

/-- Writes the number of items, once. -/
def putCount (n : Nat) : Write Unit := do
  unless (← progress).started do
    put (← lift (Layout.length n))
    modifyProgress fun p => { p with started := true }

/-- Writes a message one level down. -/
def descend (write : Write Unit) : Write Unit := fun w =>
  match write { w with stack := w.stack.descend } with
  | .ok _ w => .ok () { w with stack := w.stack.ascend true }
  | .error stop w => .error stop { w with stack := w.stack.ascend false }

section

variable (nested : Message → Write Unit)

/-- Writes an item. -/
def putItem : Item → Write Unit
  | .primitive k x => put (k.encode x)
  | .char c => putChar c
  | .text s => putBytes (some (Utf8.encode s))
  | .uuid u => put (Layout.uuid u)
  | .grid g => putGrid (some g)
  | .message m => nested m

/-- Writes the items that are not written yet. Items of fixed width have nothing to do with keys and
leave their mark as it is. -/
def putItems : List Item → Write Unit
  | [] => return
  | x :: xs => do
    putItem nested x
    modifyProgress fun p =>
      { p with index := p.index + 1, keyDone := p.keyDone && x.isPrimitive }
    putItems xs

/-- Writes the entries that are not written yet. -/
def putEntries : List (Item × Item) → Write Unit
  | [] => return
  | (k, v) :: entries => do
    unless (← progress).keyDone do
      putItem nested k
      modifyProgress fun p => { p with keyDone := true }
    putItem nested v
    modifyProgress fun p => { p with index := p.index + 1, keyDone := false }
    putEntries entries

/-- Writes a list, or the null length. -/
def putList : Option (List Item) → Write Unit
  | none => putNull
  | some items => do
    putCount items.length
    putItems nested (items.drop (← progress).index)

/-- Writes a map, or the null length. -/
def putMap : Option (List (Item × Item)) → Write Unit
  | none => putNull
  | some entries => do
    putCount entries.length
    putEntries nested (entries.drop (← progress).index)

/-- Writes a field. -/
def putField (m : Marshaller) : Field → Write Unit
  | .primitive k x => put (k.encode x)
  | .char c => putChar c
  | .text s => putBytes (s.map Utf8.encode)
  | .bytes bs => putBytes bs
  | .uuid u => put (Layout.nullableUuid u)
  | .grid g => putGrid g
  | .bits s => putList nested (s.map fun s => s.words.map Item.ofWord)
  | .value v => if v.isNull then putNull else putStaged (m.marshalValue v)
  | .object t x => putStaged (m.marshalErased t x)
  | .message (some msg) => nested msg
  | .message none => put [Message.nullType]
  | .list items => putList nested items
  | .map entries => putMap nested entries
  | .stuck => throw .suspended
  | .probe _ => do
    let w ← get
    put (Layout.probe w.stack.depth w.cursor.remaining)
  | .skipped _ _ => return

/-- Writes the fields that are not written yet. -/
def putFields (m : Marshaller) : List Field → Write Unit
  | [] => return
  | f :: fs => do
    putField nested m f
    modifyFrame fun frame => { frame with completed := frame.completed + 1, progress := default }
    putFields m fs

/-- Writes what is not written yet of a message. -/
def putBody (m : Marshaller) (msg : Message) : Write Unit := do
  unless (← get).stack.current.headerWritten do
    put [msg.type]
    modifyFrame fun frame => { frame with headerWritten := true }
  putFields nested m (msg.sent.drop (← get).stack.current.completed)

end

/-- Writes a message that may have messages nested in it to a depth of `levels`. -/
def putMessage (m : Marshaller) : (levels : Nat) → Message → Write Unit
  | 0, msg => putBody (fun _ => fail (.messageNesting m.config.maxNestingDepth)) m msg
  | levels + 1, msg => putBody (fun inner => descend (putMessage m levels inner)) m msg

end Write

end WireCodec
