import WireCodec.Frame.Pieces
import WireCodec.Frame.Session

/-!
The codec of a connection: it appends whole messages to a destination, which it grows by chunks of
the configured size, and takes messages from the front of a source as their bytes arrive.
-/

namespace WireCodec

/-- A writing and a reading session side by side. -/
structure MessageCodec where
  writer : WriteSession
  reader : ReadSession
  deriving Inhabited

namespace MessageCodec

/-- A codec that has not been used. -/
def new : MessageCodec := ⟨.new, .new⟩

/-- Whether a message is partly read. -/
def decoding (c : MessageCodec) : Bool := c.reader.active

/-- Appends what is left of a message in at most `chunks` chunks. A chunk that fails is dropped,
the chunks before it stay. -/
def encodeChunks (m : Marshaller) (msg : Message) :
    (chunks : Nat) → WriteSession → Output → Except Error Unit × WriteSession × Output
  | 0, s, out => (.error (.noProgress msg.type m.config.encodeChunkSize), s.reset, out)
  | chunks + 1, s, out =>
    match s.encode m msg m.config.encodeChunkSize with
    | (.error e, s) => (.error e, s, out)
    | (.ok (bs, true), s) => (.ok (), s, out.append bs)
    | (.ok ([], false), s) =>
      (.error (.noProgress msg.type m.config.encodeChunkSize), s.reset, out)
    | (.ok (bs, false), s) => encodeChunks m msg chunks s (out.append bs)

/-- Appends a message. Every chunk but the last one takes at least one byte, so there are no more
of them than there are bytes. -/
def encode (c : MessageCodec) (m : Marshaller) (msg : Message) (out : Output) :
    Except Error Unit × MessageCodec × Output :=
  let (r, writer, out) :=
    encodeChunks m msg ((m.emission msg).bytes.length + 1) c.writer out
  (r, { c with writer }, out)

/-- Takes a message from the front of a source, or as much of it as there is. A failing call takes
nothing. -/
def decode (c : MessageCodec) (ctx : ReadContext) (source : Bytes) :
    Except Error (Option Message) × MessageCodec × Bytes :=
  match c.reader.decode ctx source with
  | (.ok (consumed, msg), reader) => (.ok msg, { c with reader }, source.drop consumed)
  | (.error e, reader) => (.error e, { c with reader }, source)

end MessageCodec

end WireCodec
