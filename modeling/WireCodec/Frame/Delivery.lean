import WireCodec.Frame.Session

/-!
Driving sessions: a message is written over buffers of given capacities, and a stream of bytes is
fed to a reader in chunks, what a call does not consume being presented again with the next chunk.
-/

namespace WireCodec

/-- Writes a message into buffers of these capacities one after the other, until it is finished or
fails. Gives what each buffer holds and whether the message is finished. -/
def WriteSession.encodeOver (m : Marshaller) (msg : Message) :
    List Nat → WriteSession → List Bytes × Except Error Bool × WriteSession
  | [], s => ([], .ok false, s)
  | capacity :: capacities, s =>
    match s.encode m msg capacity with
    | (.error e, s) => ([], .error e, s)
    | (.ok (bs, true), s) => ([bs], .ok true, s)
    | (.ok (bs, false), s) =>
      let (chunks, r, s) := encodeOver m msg capacities s
      (bs :: chunks, r, s)

/-- A reader that a stream is fed to, and what has come of it. -/
structure Feed where
  session : ReadSession
  /-- the messages read -/
  messages : List Message
  /-- the number of bytes that each call consumed -/
  consumed : List Nat
  /-- the error that ended the stream, if one did -/
  failure : Option Error
  /-- the bytes that are not consumed yet -/
  pending : Bytes
  deriving Inhabited

namespace Feed

/-- The feed of a reader, before the first chunk. -/
def start (s : ReadSession) : Feed := ⟨s, [], [], none, []⟩

/-- Decodes what is pending, and again as long as messages come out and bytes are left. Every
message takes at least one byte, so `calls` need not exceed the number of pending bytes by more
than one. -/
def drain (ctx : ReadContext) : (calls : Nat) → Feed → Feed
  | 0, f => f
  | calls + 1, f =>
    match f.session.decode ctx f.pending with
    | (.error e, s) => { f with session := s, failure := some e }
    | (.ok (n, msg), s) =>
      let rest := f.pending.drop n
      let f := { f with session := s, consumed := f.consumed ++ [n], pending := rest }
      match msg with
      | none => f
      | some m =>
        let f := { f with messages := f.messages ++ [m] }
        if rest.isEmpty then f else drain ctx calls f

/-- Appends a chunk to what is pending and decodes. After an error nothing more is done. -/
def push (ctx : ReadContext) (f : Feed) (chunk : Bytes) : Feed :=
  if f.failure.isSome then f
  else
    let pending := f.pending ++ chunk
    drain ctx (pending.length + 1) { f with pending }

/-- Feeds all chunks one after the other. -/
def pushAll (ctx : ReadContext) (f : Feed) (chunks : List Bytes) : Feed :=
  chunks.foldl (push ctx) f

end Feed

end WireCodec
