import WireCodec.Frame.Reader
import WireCodec.Frame.Writer

/-!
Sessions: one message in flight each. A write session is handed the same message until it reports
that the message is finished; a read session is handed the bytes that it has not consumed yet and
new ones after them. An error abandons the message in flight. The marshaller, and the types that a
reader knows, are handed in with every call and may have learnt new types in between.
-/

namespace WireCodec

/-- Writes one message at a time. -/
structure WriteSession where
  stack : FrameStack WriteFrame
  /-- whether a message is in flight -/
  active : Bool
  deriving DecidableEq, Inhabited

namespace WriteSession

/-- A session that has not written anything. -/
def new : WriteSession := ⟨.empty, false⟩

/-- Abandons the message in flight. -/
def reset (s : WriteSession) : WriteSession := ⟨s.stack.reset, false⟩

/-- Writes as much of a message as fits and tells whether all of it is written. -/
def write (s : WriteSession) (m : Marshaller) (msg : Message) (cursor : WriteCursor) :
    Except Error Bool × WriteSession × WriteCursor :=
  match Write.putMessage m (m.config.maxNestingDepth - 1) msg ⟨s.stack, cursor⟩ with
  | .ok _ w => (.ok true, reset ⟨w.stack, true⟩, w.cursor)
  | .error .suspended w => (.ok false, ⟨w.stack, true⟩, w.cursor)
  | .error (.failed e) w => (.error e, reset ⟨w.stack, true⟩, w.cursor)

/-- Writes into a buffer of its own. -/
def encode (s : WriteSession) (m : Marshaller) (msg : Message) (capacity : Nat) :
    Except Error (Bytes × Bool) × WriteSession :=
  match s.write m msg (.ofCapacity capacity) with
  | (.ok finished, s, cursor) => (.ok (cursor.written.toList, finished), s)
  | (.error e, s, _) => (.error e, s)

end WriteSession

/-- Reads one message at a time. -/
structure ReadSession where
  stack : FrameStack ReadFrame
  /-- the type of the message in flight -/
  current : Option Schema
  deriving Inhabited

namespace ReadSession

/-- A session that has not read anything. -/
def new : ReadSession := ⟨.empty, none⟩

/-- Whether a message is in flight. -/
def active (s : ReadSession) : Bool := s.current.isSome

/-- Abandons the message in flight. -/
def reset (s : ReadSession) : ReadSession := ⟨s.stack.reset, none⟩

/-- The type of the message that begins at the cursor. -/
def start (ctx : ReadContext) (cursor : ReadCursor) :
    Except Error (Option (Schema × ReadCursor)) :=
  match cursor.rest with
  | [] => .ok none
  | type :: _ =>
    if type = Message.nullType then .error .nullRoot
    else
      match ctx.factories.find? type with
      | some schema => .ok (some (schema, cursor.advance 1))
      | none => .error (.noFactory type)

/-- Goes on with a message of a known type. -/
def resume (s : ReadSession) (ctx : ReadContext) (schema : Schema) (cursor : ReadCursor) :
    Except Error (Option Message) × ReadSession × ReadCursor :=
  match Read.root ctx (ctx.marshaller.config.maxNestingDepth - 1) schema ⟨s.stack, cursor⟩ with
  | .ok msg r => (.ok (some msg), reset ⟨r.stack, none⟩, r.cursor)
  | .error .suspended r => (.ok none, ⟨r.stack, some schema⟩, r.cursor)
  | .error (.failed e) r => (.error e, reset ⟨r.stack, none⟩, r.cursor)

/-- Reads as much as there is, and gives the message once all of it is read. A type byte that begins
no message is taken all the same. -/
def read (s : ReadSession) (ctx : ReadContext) (cursor : ReadCursor) :
    Except Error (Option Message) × ReadSession × ReadCursor :=
  match s.current with
  | some schema => s.resume ctx schema cursor
  | none =>
    match start ctx cursor with
    | .ok (some (schema, cursor)) => s.resume ctx schema cursor
    | .ok none => (.ok none, s, cursor)
    | .error e => (.error e, s, cursor.advance 1)

/-- Reads from bytes; gives the number of bytes consumed, and the message once all of it is
read. -/
def decode (s : ReadSession) (ctx : ReadContext) (bs : Bytes) :
    Except Error (Nat × Option Message) × ReadSession :=
  match s.read ctx (.ofBytes bs) with
  | (.ok msg, s, cursor) => (.ok (cursor.position, msg), s)
  | (.error e, s, _) => (.error e, s)

end ReadSession

end WireCodec
