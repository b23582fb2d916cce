import WireCodec.Proofs.Reading.Twins
import WireCodec.Proofs.Writing.Twins

/-!
# Sessions start over

Whatever calls were made of a session, it is on the first level between calls, and once it has
finished with a message, be it with an error or by a reset, all later calls are answered as those
of a new session are. Calls may hand in another message while one is in flight, buffers of any
size, bytes cut anywhere, and a marshaller that has learnt new types in between.

Two numbers of a frame have to stay in bounds: the fields counted, which are to fit into a byte,
and the bytes gathered of a byte string, whose difference to its length is taken.
-/

namespace WireCodec

variable {limit : ℕ∞}

/-! ## Writing -/

namespace WriteSession

/-- A call of a session that writes. -/
inductive Call where
  /-- into a new buffer of this size -/
  | encode (m : Marshaller) (msg : Message) (capacity : Nat)
  /-- into a buffer, from a place on -/
  | write (m : Marshaller) (msg : Message) (cursor : WriteCursor)
  | reset

/-- What a call gives back. -/
inductive Answer where
  | encoded (result : Except Error (Bytes × Bool))
  | written (result : Except Error Bool) (cursor : WriteCursor)
  | abandoned

/-- Makes a call. -/
def call (s : WriteSession) : Call → Answer × WriteSession
  | .encode m msg capacity =>
    (.encoded (s.encode m msg capacity).1, (s.encode m msg capacity).2)
  | .write m msg cursor =>
    (.written (s.write m msg cursor).1 (s.write m msg cursor).2.2, (s.write m msg cursor).2.1)
  | .reset => (.abandoned, s.reset)

/-- A call reports that the message is finished, or an error, or it abandons the message. -/
inductive Answer.Ends : Answer → Prop
  | encodeFinished (bs : Bytes) : Ends (.encoded (.ok (bs, true)))
  | encodeFailed (e : Error) : Ends (.encoded (.error e))
  | writeFinished (cursor : WriteCursor) : Ends (.written (.ok true) cursor)
  | writeFailed (e : Error) (cursor : WriteCursor) : Ends (.written (.error e) cursor)
  | abandoned : Ends .abandoned

/-- A call with a message of up to so many fields, at any depth. -/
def Call.Narrow (limit : ℕ∞) : Call → Prop
  | .encode _ msg _ => msg.Narrow limit
  | .write _ msg _ => msg.Narrow limit
  | .reset => True

theorem Call.narrow_top (c : Call) : c.Narrow ⊤ := by
  cases c with
  | encode m msg capacity => exact msg.narrow_top
  | write m msg cursor => exact msg.narrow_top
  | reset => trivial

/-- Sessions on the first level with frames that are twins. -/
structure Twins (limit : ℕ∞) (s t : WriteSession) : Prop where
  stack : s.stack.Twins (WriteFrame.Within limit) [] t.stack
  active : s.active = t.active

variable {s t : WriteSession} {m : Marshaller} {msg : Message}

theorem twins_reset (s t : WriteSession) : Twins limit s.reset t.reset :=
  ⟨.reset (WriteFrame.within_default limit) s.stack t.stack, rfl⟩

theorem twins_new (s : WriteSession) : Twins limit s.reset .new :=
  ⟨(FrameStack.cleared_reset s.stack).twins (WriteFrame.within_default limit)
    FrameStack.cleared_empty rfl rfl rfl rfl, rfl⟩

theorem Twins.write (h : Twins limit s t) (m : Marshaller) (hmsg : msg.Narrow limit)
    (cursor : WriteCursor) : (s.write m msg cursor).1 = (t.write m msg cursor).1 ∧
      (s.write m msg cursor).2.2 = (t.write m msg cursor).2.2 ∧
      Twins limit (s.write m msg cursor).2.1 (t.write m msg cursor).2.1 := by
  have hrun := Write.respects_putMessage m (m.config.maxNestingDepth - 1) hmsg
    ⟨s.stack, cursor⟩ ⟨t.stack, cursor⟩ ⟨h.stack, rfl⟩
  rw [WriteSession.write, WriteSession.write]
  generalize Write.putMessage m (m.config.maxNestingDepth - 1) msg ⟨s.stack, cursor⟩ = x at hrun ⊢
  generalize Write.putMessage m (m.config.maxNestingDepth - 1) msg ⟨t.stack, cursor⟩ = y at hrun ⊢
  cases hrun with
  | ok u hw => exact ⟨rfl, hw.cursor, twins_reset _ _⟩
  | error stop hw =>
    cases stop with
    | suspended => exact ⟨rfl, hw.cursor, hw.stack, rfl⟩
    | failed e => exact ⟨rfl, hw.cursor, twins_reset _ _⟩

theorem encode_eq (s : WriteSession) (m : Marshaller) (msg : Message) (capacity : Nat) :
    s.encode m msg capacity =
      ((s.write m msg (.ofCapacity capacity)).1.map fun finished =>
        ((s.write m msg (.ofCapacity capacity)).2.2.written.toList, finished),
      (s.write m msg (.ofCapacity capacity)).2.1) := by
  rw [encode]
  rcases s.write m msg (.ofCapacity capacity) with ⟨_ | finished, s, cursor⟩ <;> rfl

theorem Twins.call (h : Twins limit s t) {c : Call} (hc : c.Narrow limit) :
    (s.call c).1 = (t.call c).1 ∧ Twins limit (s.call c).2 (t.call c).2 := by
  cases c with
  | encode m msg capacity =>
    obtain ⟨hresult, hcursor, htwins⟩ := h.write m hc (.ofCapacity capacity)
    rw [WriteSession.call, WriteSession.call, encode_eq, encode_eq, hresult, hcursor]
    exact ⟨rfl, htwins⟩
  | write m msg cursor =>
    obtain ⟨hresult, hcursor, htwins⟩ := h.write m hc cursor
    exact ⟨congrArg₂ Answer.written hresult hcursor, htwins⟩
  | reset => exact ⟨rfl, twins_reset s t⟩

/-- A call of `write` resets the session, or reports that the message is not finished. -/
theorem write_cases (s : WriteSession) (m : Marshaller) (msg : Message) (cursor : WriteCursor) :
    (∃ t : WriteSession, (s.write m msg cursor).2.1 = t.reset) ∨
      (s.write m msg cursor).1 = .ok false := by
  rw [write]
  rcases Write.putMessage m (m.config.maxNestingDepth - 1) msg ⟨s.stack, cursor⟩
    with ⟨u, w⟩ | ⟨_ | e, w⟩
  · exact .inl ⟨_, rfl⟩
  · exact .inr rfl
  · exact .inl ⟨_, rfl⟩

theorem call_ends (s : WriteSession) {c : Call} (h : (s.call c).1.Ends) :
    ∃ t : WriteSession, (s.call c).2 = t.reset := by
  cases c with
  | encode m msg capacity =>
    rw [call, encode_eq] at h ⊢
    obtain hreset | hwaits := s.write_cases m msg (.ofCapacity capacity)
    · exact hreset
    · rw [hwaits] at h
      cases h
  | write m msg cursor =>
    obtain hreset | hwaits := s.write_cases m msg cursor
    · exact hreset
    · rw [call, hwaits] at h
      cases h
  | reset => exact ⟨s, rfl⟩

/-- What calls lead to is on the first level, and counts no more fields than the messages have. -/
theorem twins_afterCalls {calls : List Call} (h : ∀ c ∈ calls, c.Narrow limit) :
    Twins limit (afterCalls call .new calls) (afterCalls call .new calls) :=
  List.foldlRecOn (motive := fun s => Twins limit s s) calls _ (twins_new .new)
    fun _ hs c hc => (hs.call (h c hc)).2

theorem depth_afterCalls (calls : List Call) : (afterCalls call .new calls).stack.depth = 0 :=
  have h : Twins ⊤ (afterCalls call .new calls) _ := twins_afterCalls fun c _ => c.narrow_top
  congrArg List.length h.stack.level

/-- Once a call has ended a message, later calls are answered as those of a new session. -/
theorem answers_of_ends (s : WriteSession) {c : Call} (h : (s.call c).1.Ends)
    (further : List Call) : (s.call c).2.active = false ∧
      answers call (s.call c).2 further = answers call .new further := by
  obtain ⟨t, ht⟩ := s.call_ends h
  rw [ht]
  exact ⟨rfl, answers_eq (R := Twins ⊤) (fun _ _ c h => h.call (c := c) c.narrow_top) further
    (twins_new t)⟩

end WriteSession

/-! ## Reading -/

namespace ReadSession

/-- A call of a session that reads. -/
inductive Call where
  /-- from bytes -/
  | decode (ctx : ReadContext) (bs : Bytes)
  /-- from bytes, at a place in them -/
  | read (ctx : ReadContext) (cursor : ReadCursor)
  | reset

/-- What a call gives back. -/
inductive Answer where
  | decoded (result : Except Error (Nat × Option Message))
  | read (result : Except Error (Option Message)) (cursor : ReadCursor)
  | abandoned

/-- Makes a call. -/
def call (s : ReadSession) : Call → Answer × ReadSession
  | .decode ctx bs => (.decoded (s.decode ctx bs).1, (s.decode ctx bs).2)
  | .read ctx cursor =>
    (.read (s.read ctx cursor).1 (s.read ctx cursor).2.2, (s.read ctx cursor).2.1)
  | .reset => (.abandoned, s.reset)

/-- A call gives a message, or an error, or it abandons the message. -/
inductive Answer.Ends : Answer → Prop
  | decodeFinished (n : Nat) (msg : Message) : Ends (.decoded (.ok (n, some msg)))
  | decodeFailed (e : Error) : Ends (.decoded (.error e))
  | readFinished (msg : Message) (cursor : ReadCursor) : Ends (.read (.ok (some msg)) cursor)
  | readFailed (e : Error) (cursor : ReadCursor) : Ends (.read (.error e) cursor)
  | abandoned : Ends .abandoned

/-- A call that can meet types of messages with up to so many fields. -/
def Call.Narrow (limit : ℕ∞) : Call → Prop
  | .decode ctx _ => ctx.Narrow limit
  | .read ctx _ => ctx.Narrow limit
  | .reset => True

theorem Call.narrow_top (c : Call) : c.Narrow ⊤ := by
  cases c with
  | decode ctx bs => exact ctx.narrow_top
  | read ctx cursor => exact ctx.narrow_top
  | reset => trivial

/-- Sessions on the first level with frames that are twins, and in the middle of the same message
if of any. -/
structure Twins (limit : ℕ∞) (s t : ReadSession) : Prop where
  stack : s.stack.Twins (ReadFrame.Sound limit) [] t.stack
  current : s.current = t.current
  narrow : ∀ schema, s.current = some schema → schema.Narrow limit

variable {s t : ReadSession} {ctx : ReadContext} {cursor : ReadCursor}

theorem twins_reset (s t : ReadSession) : Twins limit s.reset t.reset :=
  ⟨.reset (ReadFrame.sound_default limit) s.stack t.stack, rfl, nofun⟩

theorem twins_new (s : ReadSession) : Twins limit s.reset .new :=
  ⟨(FrameStack.cleared_reset s.stack).twins (ReadFrame.sound_default limit)
    FrameStack.cleared_empty rfl rfl rfl rfl, rfl, nofun⟩

theorem Twins.resume (h : Twins limit s t) (hctx : ctx.Narrow limit) {schema : Schema}
    (hs : schema.Narrow limit) (cursor : ReadCursor) :
    (s.resume ctx schema cursor).1 = (t.resume ctx schema cursor).1 ∧
      (s.resume ctx schema cursor).2.2 = (t.resume ctx schema cursor).2.2 ∧
      Twins limit (s.resume ctx schema cursor).2.1 (t.resume ctx schema cursor).2.1 := by
  have hrun := Read.respects_root hctx (ctx.marshaller.config.maxNestingDepth - 1) hs
    ⟨s.stack, cursor⟩ ⟨t.stack, cursor⟩ ⟨h.stack, rfl⟩
  rw [ReadSession.resume, ReadSession.resume]
  generalize Read.root ctx (ctx.marshaller.config.maxNestingDepth - 1) schema ⟨s.stack, cursor⟩ = x
    at hrun ⊢
  generalize Read.root ctx (ctx.marshaller.config.maxNestingDepth - 1) schema ⟨t.stack, cursor⟩ = y
    at hrun ⊢
  cases hrun with
  | ok msg hr => exact ⟨rfl, hr.cursor, twins_reset _ _⟩
  | error stop hr =>
    cases stop with
    | suspended =>
      refine ⟨rfl, hr.cursor, hr.stack, rfl, ?_⟩
      rintro _ ⟨⟩
      exact hs
    | failed e => exact ⟨rfl, hr.cursor, twins_reset _ _⟩

/-- The message that begins at a place is of a declared type. -/
theorem declared_of_start {schema : Schema} {cursor' : ReadCursor}
    (h : start ctx cursor = .ok (some (schema, cursor'))) : ctx.Declared schema := by
  rw [start] at h
  split at h
  · cases h
  · split at h
    · cases h
    · split at h <;> cases h
      exact .inl (List.mem_of_find?_eq_some ‹_›)

theorem Twins.read (h : Twins limit s t) (hctx : ctx.Narrow limit) (cursor : ReadCursor) :
    (s.read ctx cursor).1 = (t.read ctx cursor).1 ∧
      (s.read ctx cursor).2.2 = (t.read ctx cursor).2.2 ∧
      Twins limit (s.read ctx cursor).2.1 (t.read ctx cursor).2.1 := by
  rw [ReadSession.read, ReadSession.read, ← h.current]
  cases hcurrent : s.current with
  | some schema => exact h.resume hctx (h.narrow schema hcurrent) cursor
  | none =>
    cases hstart : start ctx cursor with
    | error e => exact ⟨rfl, rfl, h⟩
    | ok begun =>
      cases begun with
      | none => exact ⟨rfl, rfl, h⟩
      | some begun => exact h.resume hctx (hctx _ (declared_of_start hstart)) begun.2

theorem decode_eq (s : ReadSession) (ctx : ReadContext) (bs : Bytes) :
    s.decode ctx bs = ((s.read ctx (.ofBytes bs)).1.map fun msg =>
        ((s.read ctx (.ofBytes bs)).2.2.position, msg),
      (s.read ctx (.ofBytes bs)).2.1) := by
  rw [decode]
  rcases s.read ctx (.ofBytes bs) with ⟨_ | msg, s, cursor⟩ <;> rfl

theorem Twins.call (h : Twins limit s t) {c : Call} (hc : c.Narrow limit) :
    (s.call c).1 = (t.call c).1 ∧ Twins limit (s.call c).2 (t.call c).2 := by
  cases c with
  | decode ctx bs =>
    obtain ⟨hresult, hcursor, htwins⟩ := h.read hc (.ofBytes bs)
    rw [ReadSession.call, ReadSession.call, decode_eq, decode_eq, hresult, hcursor]
    exact ⟨rfl, htwins⟩
  | read ctx cursor =>
    obtain ⟨hresult, hcursor, htwins⟩ := h.read hc cursor
    exact ⟨congrArg₂ Answer.read hresult hcursor, htwins⟩
  | reset => exact ⟨rfl, twins_reset s t⟩

/-- A call of `read` resets the session, or it waits in the middle of a message, or it leaves a
session alone that is in the middle of none. -/
theorem read_cases (s : ReadSession) (ctx : ReadContext) (cursor : ReadCursor) :
    (∃ t : ReadSession, (s.read ctx cursor).2.1 = t.reset) ∨
      ((s.read ctx cursor).1 = .ok none ∧ (s.read ctx cursor).2.1.current ≠ none) ∨
      ((s.read ctx cursor).2.1 = s ∧ s.current = none) := by
  have hresume (schema : Schema) (cursor : ReadCursor) :
      (∃ t : ReadSession, (s.resume ctx schema cursor).2.1 = t.reset) ∨
      ((s.resume ctx schema cursor).1 = .ok none ∧
        (s.resume ctx schema cursor).2.1.current ≠ none) := by
    rw [resume]
    rcases Read.root ctx (ctx.marshaller.config.maxNestingDepth - 1) schema ⟨s.stack, cursor⟩
      with ⟨msg, r⟩ | ⟨_ | e, r⟩
    · exact .inl ⟨_, rfl⟩
    · exact .inr ⟨rfl, nofun⟩
    · exact .inl ⟨_, rfl⟩
  rw [read]
  cases hcurrent : s.current with
  | some schema => exact (hresume schema cursor).imp_right .inl
  | none =>
    cases start ctx cursor with
    | error e => exact .inr (.inr ⟨rfl, rfl⟩)
    | ok begun =>
      cases begun with
      | none => exact .inr (.inr ⟨rfl, rfl⟩)
      | some begun => exact (hresume begun.1 begun.2).imp_right .inl

/-- A session that is in the middle of no message is like a new one. -/
def Rested (s : ReadSession) : Prop := s.current = none → Twins ⊤ s .new

theorem Rested.read (h : s.Rested) (ctx : ReadContext) (cursor : ReadCursor) :
    (s.read ctx cursor).2.1.Rested := by
  intro hnone
  obtain ⟨t, ht⟩ | ⟨-, hsome⟩ | ⟨hs, hcurrent⟩ := s.read_cases ctx cursor
  · exact ht ▸ twins_new t
  · exact absurd hnone hsome
  · exact hs.symm ▸ h hcurrent

theorem Rested.call (h : s.Rested) (c : Call) : (s.call c).2.Rested := by
  cases c with
  | decode ctx bs =>
    rw [ReadSession.call, decode_eq]
    exact h.read ctx (.ofBytes bs)
  | read ctx cursor => exact h.read ctx cursor
  | reset => exact fun _ => twins_new s

theorem call_ends (s : ReadSession) {c : Call} (h : (s.call c).1.Ends) :
    (s.call c).2.current = none := by
  have hread (ctx : ReadContext) (cursor : ReadCursor)
      (h : (s.read ctx cursor).1 ≠ .ok none) : (s.read ctx cursor).2.1.current = none := by
    obtain ⟨t, ht⟩ | ⟨hwaits, -⟩ | ⟨hs, hcurrent⟩ := s.read_cases ctx cursor
    · rw [ht]
      rfl
    · exact absurd hwaits h
    · rw [hs, hcurrent]
  cases c with
  | decode ctx bs =>
    rw [call, decode_eq] at h ⊢
    refine hread ctx (.ofBytes bs) fun hwaits => ?_
    rw [hwaits] at h
    cases h
  | read ctx cursor =>
    refine hread ctx cursor fun hwaits => ?_
    rw [call, hwaits] at h
    cases h
  | reset => rfl

/-- What calls lead to is on the first level, with sound frames. -/
theorem twins_afterCalls {calls : List Call} (h : ∀ c ∈ calls, c.Narrow limit) :
    Twins limit (afterCalls call .new calls) (afterCalls call .new calls) :=
  List.foldlRecOn (motive := fun s => Twins limit s s) calls _ (twins_new .new)
    fun _ hs c hc => (hs.call (h c hc)).2

theorem rested_afterCalls (calls : List Call) : (afterCalls call .new calls).Rested :=
  List.foldlRecOn (motive := Rested) calls _ (fun _ => twins_new .new) fun _ hs c _ => hs.call c

theorem depth_afterCalls (calls : List Call) : (afterCalls call .new calls).stack.depth = 0 :=
  have h : Twins ⊤ (afterCalls call .new calls) _ := twins_afterCalls fun c _ => c.narrow_top
  congrArg List.length h.stack.level

/-- Once a call has ended a message, later calls are answered as those of a new session. -/
theorem answers_of_ends (hs : s.Rested) {c : Call} (h : (s.call c).1.Ends)
    (further : List Call) : (s.call c).2.active = false ∧
      answers call (s.call c).2 further = answers call .new further := by
  have hnone := s.call_ends h
  refine ⟨by rw [active, hnone]; rfl, ?_⟩
  exact answers_eq (R := Twins ⊤) (fun _ _ c h => h.call (c := c) c.narrow_top) further
    (hs.call c hnone)

end ReadSession

/-- Sessions carry nothing over from one message to the next. Whatever calls were made of a session,
it is on the first level, and the numbers in its frames are in bounds: no more fields are counted
than messages have, and a byte string is no longer than its length. Once a call has ended the
message in flight, all later calls are answered as by a new session. -/
theorem sessions_start_over :
    (∀ calls : List WriteSession.Call, let s := afterCalls WriteSession.call .new calls
      s.stack.depth = 0 ∧
      (∀ limit, (∀ c ∈ calls, c.Narrow limit) → s.stack.All (WriteFrame.Within limit)) ∧
      ∀ c further, (s.call c).1.Ends → (s.call c).2.active = false ∧
        answers WriteSession.call (s.call c).2 further = answers WriteSession.call .new further) ∧
    ∀ calls : List ReadSession.Call, let s := afterCalls ReadSession.call .new calls
      s.stack.depth = 0 ∧
      (∀ limit, (∀ c ∈ calls, c.Narrow limit) → s.stack.All (ReadFrame.Sound limit)) ∧
      ∀ c further, (s.call c).1.Ends → (s.call c).2.active = false ∧
        answers ReadSession.call (s.call c).2 further = answers ReadSession.call .new further := by
  refine ⟨fun calls => ⟨WriteSession.depth_afterCalls calls, ?_, ?_⟩,
    fun calls => ⟨ReadSession.depth_afterCalls calls, ?_, ?_⟩⟩
  · exact fun limit h => (WriteSession.twins_afterCalls h).stack.all
  · exact fun c further h => WriteSession.answers_of_ends _ h further
  · exact fun limit h => (ReadSession.twins_afterCalls h).stack.all
  · have hrested := ReadSession.rested_afterCalls calls
    exact fun c further h => ReadSession.answers_of_ends hrested h further

/-- A message is left for another one in the middle of a message nested in it, where a character
without a UTF-16 unit of its own ends it; bytes that are no text end a message that is read. -/
theorem sessions_start_over_nested :
    let m := Marshaller.ofConfig {} .empty
    let ctx : ReadContext :=
      ⟨m, fun _ => [.bytes false, .char], ⟨[⟨40, [.char, .message (some 41)]⟩]⟩⟩
    let first : Message :=
      .mk 40 [.bytes (some [1, 2]), .message (some (.mk 41 [.bytes (some [3])]))]
    let other : Message := .mk 40 [.char 'b', .message (some (.mk 41 [.char '😀']))]
    let last : Message := .mk 40 [.char 'c', .message none]
    let writes : List WriteSession.Call := [.encode m first 8]
    let reads : List ReadSession.Call := [.decode ctx [40, 97, 0, 41, 2, 0, 0, 0, 98]]
    (afterCalls WriteSession.call .new writes).stack.All (WriteFrame.Within 255) ∧
      ((afterCalls WriteSession.call .new writes).encode m other 32).1 =
        .error (.supplementaryCharacter 0x1F600) ∧
      answers WriteSession.call
        ((afterCalls WriteSession.call .new writes).call (.encode m other 32)).2
        [.encode m last 32] = [.encoded (.ok ([40, 99, 0, 255], true))] ∧
      (afterCalls ReadSession.call .new reads).stack.All (ReadFrame.Sound 255) ∧
      ((afterCalls ReadSession.call .new reads).decode ctx [99, 0, 216]).1 =
        .error (.unpairedUnit 0xD800) ∧
      answers ReadSession.call
        ((afterCalls ReadSession.call .new reads).call (.decode ctx [99, 0, 216])).2
        [.decode ctx [40, 99, 0, 255]] = [.decoded (.ok (4, some last))] := by
  intro m ctx first other last writes reads
  have hfirst : first.Narrow 255 := by
    have hinner : (Message.mk 41 [.bytes (some [3])]).Narrow 255 :=
      .mk (Nat.cast_le.mpr (by decide : 1 ≤ 255)) (List.forall_mem_singleton.mpr nofun)
    refine .mk (Nat.cast_le.mpr (by decide : 2 ≤ 255)) (List.forall_mem_cons.mpr ⟨nofun, ?_⟩)
    exact List.forall_mem_singleton.mpr (List.forall_mem_singleton.mpr hinner)
  have hctx : ctx.Narrow 255 := by
    rintro schema (hschema | ⟨type, rfl⟩)
    · cases List.mem_singleton.mp hschema
      exact Nat.cast_le.mpr (by decide : 2 ≤ 255)
    · exact Nat.cast_le.mpr (by decide : 2 ≤ 255)
  have hother : ((afterCalls WriteSession.call .new writes).encode m other 32).1 =
      .error (.supplementaryCharacter 0x1F600) := by decide +kernel
  have hlast : (WriteSession.new.encode m last 32).1 = .ok ([40, 99, 0, 255], true) := by
    decide +kernel
  have hbad : ((afterCalls ReadSession.call .new reads).decode ctx [99, 0, 216]).1 =
      .error (.unpairedUnit 0xD800) := by rfl
  have hgood : (ReadSession.new.decode ctx [40, 99, 0, 255]).1 = .ok (4, some last) := by rfl
  have hnew : answers WriteSession.call .new [.encode m last 32] =
      [.encoded (.ok ([40, 99, 0, 255], true))] := by
    rw [answers, answers, WriteSession.call, hlast]
  have hnew' : answers ReadSession.call .new [.decode ctx [40, 99, 0, 255]] =
      [.decoded (.ok (4, some last))] := by
    rw [answers, answers, ReadSession.call, hgood]
  have hends : ((afterCalls WriteSession.call .new writes).call (.encode m other 32)).1.Ends := by
    rw [WriteSession.call, hother]
    exact .encodeFailed _
  have hends' :
      ((afterCalls ReadSession.call .new reads).call (.decode ctx [99, 0, 216])).1.Ends := by
    rw [ReadSession.call, hbad]
    exact .decodeFailed _
  obtain ⟨-, hwithin, hwrite⟩ := sessions_start_over.1 writes
  obtain ⟨-, hsound, hread⟩ := sessions_start_over.2 reads
  have hframes := hwithin 255 (List.forall_mem_singleton.mpr hfirst)
  have hframes' := hsound 255 (List.forall_mem_singleton.mpr hctx)
  have hanswers := (hwrite (.encode m other 32) [.encode m last 32] hends).2
  have hanswers' := (hread (.decode ctx [99, 0, 216]) [.decode ctx [40, 99, 0, 255]] hends').2
  rw [hnew] at hanswers
  rw [hnew'] at hanswers'
  exact ⟨hframes, hother, hanswers, hframes', hbad, hanswers'⟩

end WireCodec
