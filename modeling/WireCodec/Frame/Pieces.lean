import WireCodec.Frame.Layout
import WireCodec.Marshal.Marshaller

/-!
What a message is framed into when room is no concern: pieces that are written as a whole, and
byte strings that may be cut anywhere. The bytes of all pieces are the encoding of the message;
sessions write them in buffers of any size, cut only where the pieces allow.
-/

namespace WireCodec

/-- A part of an encoded message. -/
inductive Piece where
  /-- bytes that are written together -/
  | whole (bs : Bytes)
  /-- bytes that may be cut anywhere -/
  | stream (bs : Bytes)
  deriving DecidableEq

/-- The bytes of a piece. -/
def Piece.bytes : Piece → Bytes
  | whole bs => bs
  | stream bs => bs

/-- The pieces that are written before an end, and the error that ends them early, if one does. -/
structure Emission where
  pieces : List Piece
  failure : Option Error
  deriving DecidableEq

namespace Emission

/-- Nothing to write. -/
def empty : Emission := ⟨[], none⟩

/-- One piece that is written as a whole. -/
def whole (bs : Bytes) : Emission := ⟨[.whole bs], none⟩

/-- An error before anything is written. -/
def failed (e : Error) : Emission := ⟨[], some e⟩

/-- The pieces of one part and then, unless it failed, those of the next. -/
def andThen (a b : Emission) : Emission :=
  match a.failure with
  | none => ⟨a.pieces ++ b.pieces, b.failure⟩
  | some _ => a

/-- A piece that is written as a whole, or the error that stands in its place. -/
def ofResult : Except Error Bytes → Emission
  | .ok bs => whole bs
  | .error e => failed e

/-- A length, and then a byte string. -/
def chunk (bs : Bytes) : Emission :=
  (ofResult (Layout.length bs.length)).andThen ⟨[.stream bs], none⟩

/-- A value as a byte string, or the error of encoding it. -/
def staged : Except Error Bytes → Emission
  | .ok bs => chunk bs
  | .error e => failed e

/-- The null length. -/
def null : Emission := whole Layout.nullLengthBytes

/-- All parts one after the other. -/
def each {α : Type} (f : α → Emission) : List α → Emission
  | [] => empty
  | x :: xs => (f x).andThen (each f xs)

/-- All bytes. -/
def bytes (e : Emission) : Bytes := e.pieces.flatMap Piece.bytes

/-- All bytes, or the error that ended them. -/
def result (e : Emission) : Except Error Bytes :=
  match e.failure with
  | none => .ok e.bytes
  | some error => .error error

section

variable (nested : Message → Emission)

/-- The pieces of an item. -/
def ofItem : Item → Emission
  | .primitive k x => whole (k.encode x)
  | .char c => ofResult (Encode.char c)
  | .text s => chunk (Utf8.encode s)
  | .uuid u => whole (Layout.uuid u)
  | .grid g =>
    (whole (Layout.nullableUuid (some g.node))).andThen (whole (Encode.int64 g.counter.toBitVec))
  | .message m => nested m

/-- The pieces of a list. -/
def ofList : Option (List Item) → Emission
  | none => null
  | some items => (ofResult (Layout.length items.length)).andThen (each (ofItem nested) items)

/-- The pieces of a map. -/
def ofMap : Option (List (Item × Item)) → Emission
  | none => null
  | some entries =>
    (ofResult (Layout.length entries.length)).andThen
      (each (fun e => (ofItem nested e.1).andThen (ofItem nested e.2)) entries)

/-- The pieces of a field. Those of a probe stand for bytes that are known only when they are
written; a field that is never ready has none. -/
def ofField (m : Marshaller) : Field → Emission
  | .primitive k x => whole (k.encode x)
  | .char c => ofResult (Encode.char c)
  | .text s => (s.map fun s => chunk (Utf8.encode s)).getD null
  | .bytes bs => (bs.map chunk).getD null
  | .uuid u => whole (Layout.nullableUuid u)
  | .grid (some g) => ofItem nested (.grid g)
  | .grid none => whole (Layout.nullableUuid none)
  | .bits s => ofList nested (s.map fun s => s.words.map Item.ofWord)
  | .value v => if v.isNull then null else staged (m.marshalValue v)
  | .object t x => staged (m.marshalErased t x)
  | .message (some msg) => nested msg
  | .message none => whole [Message.nullType]
  | .list items => ofList nested items
  | .map entries => ofMap nested entries
  | .stuck => empty
  | .probe _ => whole (Layout.probe 0 0)
  | .skipped _ _ => empty

/-- The pieces of a message: its type byte, then its fields. -/
def ofBody (m : Marshaller) (msg : Message) : Emission :=
  (whole [msg.type]).andThen (each (ofField nested m) msg.sent)

end

/-- The pieces of a message that may have messages nested in it to a depth of `levels`. -/
def ofMessage (m : Marshaller) : (levels : Nat) → Message → Emission
  | 0, msg => ofBody (fun _ => failed (.messageNesting m.config.maxNestingDepth)) m msg
  | levels + 1, msg => ofBody (ofMessage m levels) m msg

end Emission

/-- The pieces of a message under a marshaller's limits. -/
def Marshaller.emission (m : Marshaller) (msg : Message) : Emission :=
  .ofMessage m (m.config.maxNestingDepth - 1) msg

end WireCodec
