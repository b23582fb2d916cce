import WireCodec.Proofs.Pools
import WireCodec.Proofs.Reading.Trails
import WireCodec.Proofs.Sessions
import WireCodec.Proofs.Writing.Trails

/-!
# Sessions between calls

Between calls a session is on the first level, and from there a trail leads to the place where the
message in flight stopped; the frames that follow are cleared. A call that goes on with the message
follows the trail and leaves one behind again, however it ends. So it never fails for progress that
belongs to another field or to another message.

What a session reads is told by its bytes alone. What it writes is handed in with every call, and
has to be the message in flight as long as there is one (`WriteSession.Unmodified`).
-/

namespace WireCodec

namespace FrameStack

variable {κ φ : Type} [Inhabited φ] {Holds : κ → φ → Option κ → Prop} {next : Option κ}
  {s : FrameStack φ}

/-- A stack on the first level, with a trail through its frames. -/
structure Tidy (Holds : κ → φ → Option κ → Prop) (next : Option κ) (s : FrameStack φ) : Prop where
  level : s.depth = 0
  trail : Trail Holds next s.pool.frames

theorem Tidy.of_above (h : s.above = []) (htrail : Trail Holds next (s.current :: s.below)) :
    s.Tidy Holds next where
  level := by rw [depth, h]; rfl
  trail := by
    rw [pool, h]
    exact htrail

theorem Tidy.above (h : s.Tidy Holds next) : s.above = [] := List.eq_nil_of_length_eq_zero h.level

theorem Tidy.current (h : s.Tidy Holds next) : Trail Holds next (s.current :: s.below) := by
  have htrail := h.trail
  rw [pool, h.above] at htrail
  exact htrail

theorem tidy_reset (s : FrameStack φ) : s.reset.Tidy Holds next :=
  .of_above rfl (.cleared (List.forall_mem_cons.mpr ⟨rfl, cleared_reset s⟩))

/-- A message that is not begun may be any message. -/
theorem Tidy.begin (h : s.Tidy Holds none) (next : Option κ) : s.Tidy Holds next :=
  ⟨h.level, .cleared (Trail.none_iff.mp h.trail)⟩

theorem sized_reset {bound : Nat} (h : s.pooled ≤ bound) : s.reset.Sized 0 bound :=
  ⟨rfl, s.pooled_reset.symm ▸ h⟩

theorem sized_empty (limit : Nat) : (empty : FrameStack φ).Sized 0 (max 1 limit) :=
  ⟨rfl, Nat.le_max_left 1 limit⟩

end FrameStack

/-! ## Reading -/

namespace ReadSession

/-- The error that a call gives. -/
def Answer.failure? : Answer → Option Error
  | .decoded (.error e) => some e
  | .read (.error e) _ => some e
  | _ => none

/-- If a call fails, its error has a property. -/
def Answer.FailsWith (P : Error → Prop) : Answer → Prop
  | .decoded result => WireCodec.FailsWith P result
  | .read result _ => WireCodec.FailsWith P result
  | .abandoned => True

theorem Answer.FailsWith.of_failure? {P : Error → Prop} {a : Answer} (h : a.FailsWith P)
    {e : Error} (he : a.failure? = some e) : P e := by
  rcases a with ⟨e' | result⟩ | ⟨e' | result, cursor⟩ | _ <;> cases he
  · exact h e rfl
  · exact h e rfl

/-- A call under limits that let messages nest no deeper than this. -/
def Call.Shallow (limit : Nat) : Call → Prop
  | .decode ctx _ => ctx.marshaller.config.maxNestingDepth ≤ limit
  | .read ctx _ => ctx.marshaller.config.maxNestingDepth ≤ limit
  | .reset => True

/-- On the first level, where a trail leads to the place where the message in flight stopped. -/
def Tidy (s : ReadSession) : Prop := s.stack.Tidy ReadFrame.Holds s.current

variable {s : ReadSession} {limit : Nat}

theorem tidy_reset (s : ReadSession) : s.reset.Tidy := s.stack.tidy_reset

theorem tidy_resume {schema : Schema} (h : s.stack.Tidy ReadFrame.Holds (some schema))
    (ctx : ReadContext) (cursor : ReadCursor) :
    FailsWith Error.Foreign (s.resume ctx schema cursor).1 ∧
      (s.resume ctx schema cursor).2.1.Tidy := by
  have hrun := Read.endsMessage_root ctx (ctx.marshaller.config.maxNestingDepth - 1) schema
    ⟨s.stack, cursor⟩ h.current
  rw [resume]
  generalize Read.root ctx (ctx.marshaller.config.maxNestingDepth - 1) schema
    ⟨s.stack, cursor⟩ = x at hrun ⊢
  rcases x with ⟨msg, r⟩ | ⟨_ | e, r⟩
  · exact ⟨.ok _, tidy_reset _⟩
  · exact ⟨.ok _, .of_above (hrun.1.trans h.above) hrun.2⟩
  · exact ⟨.error hrun, tidy_reset _⟩

theorem foreign_start (ctx : ReadContext) (cursor : ReadCursor) :
    FailsWith Error.Foreign (start ctx cursor) := by
  rw [start]
  split
  · exact .ok _
  · split
    · exact .error rfl
    · split
      · exact .ok _
      · exact .error rfl

theorem Tidy.read (h : s.Tidy) (ctx : ReadContext) (cursor : ReadCursor) :
    FailsWith Error.Foreign (s.read ctx cursor).1 ∧ (s.read ctx cursor).2.1.Tidy := by
  rw [ReadSession.read]
  cases hcurrent : s.current with
  | some schema =>
    rw [Tidy, hcurrent] at h
    exact tidy_resume h ctx cursor
  | none =>
    have hstart := foreign_start ctx cursor
    rcases hbegun : start ctx cursor with e | ⟨_ | ⟨schema, cursor⟩⟩
    · exact ⟨.error (hstart e hbegun), h⟩
    · exact ⟨.ok _, h⟩
    · rw [Tidy, hcurrent] at h
      exact tidy_resume (h.begin (some schema)) ctx cursor

/-- A call leaves a trail behind, and never fails for what it finds in a frame. -/
theorem Tidy.call (h : s.Tidy) (c : Call) :
    (s.call c).1.FailsWith Error.Foreign ∧ (s.call c).2.Tidy := by
  cases c with
  | decode ctx bs =>
    obtain ⟨hforeign, htidy⟩ := h.read ctx (.ofBytes bs)
    rw [ReadSession.call, decode_eq]
    exact ⟨hforeign.map _, htidy⟩
  | read ctx cursor => exact h.read ctx cursor
  | reset => exact ⟨trivial, tidy_reset s⟩

theorem tidy_afterCalls (calls : List Call) : (afterCalls call .new calls).Tidy :=
  List.foldlRecOn (motive := Tidy) calls _ (tidy_reset .new) fun _ hs c _ => (hs.call c).2

theorem sized_read {ctx : ReadContext} (h : s.stack.Sized 0 (max 1 limit))
    (hctx : ctx.marshaller.config.maxNestingDepth ≤ limit) (cursor : ReadCursor) :
    (s.read ctx cursor).2.1.stack.Sized 0 (max 1 limit) := by
  have hresume (schema : Schema) (cursor : ReadCursor) :
      (s.resume ctx schema cursor).2.1.stack.Sized 0 (max 1 limit) := by
    have hlevels : 0 + 1 + (ctx.marshaller.config.maxNestingDepth - 1) ≤ max 1 limit := by omega
    have hrun := Read.sized_root ctx hlevels schema ⟨s.stack, cursor⟩ h
    rw [resume]
    generalize Read.root ctx (ctx.marshaller.config.maxNestingDepth - 1) schema
      ⟨s.stack, cursor⟩ = x at hrun ⊢
    rcases x with ⟨msg, r⟩ | ⟨_ | e, r⟩
    · exact FrameStack.sized_reset hrun.2
    · exact hrun
    · exact FrameStack.sized_reset hrun.2
  rw [read]
  cases s.current with
  | some schema => exact hresume schema cursor
  | none =>
    rcases start ctx cursor with e | ⟨_ | ⟨schema, cursor⟩⟩
    · exact h
    · exact h
    · exact hresume schema cursor

theorem sized_afterCalls {calls : List Call} (h : ∀ c ∈ calls, c.Shallow limit) :
    (afterCalls call .new calls).stack.Sized 0 (max 1 limit) := by
  refine List.foldlRecOn (motive := fun s : ReadSession => s.stack.Sized 0 (max 1 limit)) calls _
    (FrameStack.sized_empty limit) fun s hs c hc => ?_
  have hc := h c hc
  cases c with
  | decode ctx bs =>
    rw [call, decode_eq]
    exact sized_read hs hc (.ofBytes bs)
  | read ctx cursor => exact sized_read hs hc cursor
  | reset => exact FrameStack.sized_reset hs.2

end ReadSession

/-! ## Writing -/

namespace WriteSession

/-- The error that a call gives. -/
def Answer.failure? : Answer → Option Error
  | .encoded (.error e) => some e
  | .written (.error e) _ => some e
  | _ => none

/-- If a call fails, its error has a property. -/
def Answer.FailsWith (P : Error → Prop) : Answer → Prop
  | .encoded result => WireCodec.FailsWith P result
  | .written result _ => WireCodec.FailsWith P result
  | .abandoned => True

theorem Answer.FailsWith.of_failure? {P : Error → Prop} {a : Answer} (h : a.FailsWith P)
    {e : Error} (he : a.failure? = some e) : P e := by
  rcases a with ⟨e' | result⟩ | ⟨e' | result, cursor⟩ | _ <;> cases he
  · exact h e rfl
  · exact h e rfl

/-- The message that a call hands in. -/
def Call.message? : Call → Option Message
  | .encode _ msg _ => some msg
  | .write _ msg _ => some msg
  | .reset => none

/-- A call under limits that let messages nest no deeper than this. -/
def Call.Shallow (limit : Nat) : Call → Prop
  | .encode m _ _ => m.config.maxNestingDepth ≤ limit
  | .write m _ _ => m.config.maxNestingDepth ≤ limit
  | .reset => True

/-- The message that is in flight after calls: the one that was handed in last, unless the session
has finished with it. -/
def inFlight (calls : List Call) : Option Message :=
  if (afterCalls call .new calls).active then calls.getLast?.bind Call.message? else none

/-- A call that hands in the message in flight, or abandons it. -/
def Call.GoesOn (inFlight : Option Message) (c : Call) : Prop :=
  ∀ msg, inFlight = some msg → c.message? = none ∨ c.message? = some msg

theorem goesOn_nil (c : Call) : c.GoesOn (inFlight []) := by
  intro msg hmsg
  cases hmsg

/-- Calls that hand in the same message until it is finished, fails or is abandoned. -/
inductive Unmodified : List Call → Prop
  | nil : Unmodified []
  | snoc {calls : List Call} {c : Call} (h : Unmodified calls) (hc : c.GoesOn (inFlight calls)) :
    Unmodified (calls ++ [c])

/-- On the first level, where a trail leads to the place where a message stopped. -/
def Tidy (inFlight : Option Message) (s : WriteSession) : Prop :=
  s.stack.Tidy WriteFrame.Holds inFlight

variable {s : WriteSession} {msg : Message} {limit : Nat}

theorem tidy_reset (next : Option Message) (s : WriteSession) : s.reset.Tidy next :=
  s.stack.tidy_reset

/-- Writing on with the message in flight leaves a trail behind, and never fails for what it finds
in a frame. Where nothing is in flight any more, the trail is that of no message. -/
theorem Tidy.write (h : s.Tidy (some msg)) (m : Marshaller) (cursor : WriteCursor) :
    FailsWith Error.Foreign (s.write m msg cursor).1 ∧
      (s.write m msg cursor).2.1.Tidy
        (if (s.write m msg cursor).2.1.active then some msg else none) := by
  have hrun := Write.endsMessage_putMessage m (m.config.maxNestingDepth - 1) msg
    ⟨s.stack, cursor⟩ h.current
  rw [WriteSession.write]
  generalize Write.putMessage m (m.config.maxNestingDepth - 1) msg ⟨s.stack, cursor⟩ = x at hrun ⊢
  rcases x with ⟨u, w⟩ | ⟨_ | e, w⟩
  · exact ⟨.ok _, tidy_reset _ _⟩
  · exact ⟨.ok _, .of_above (hrun.1.trans h.above) hrun.2⟩
  · exact ⟨.error hrun, tidy_reset _ _⟩

theorem Tidy.call {next : Option Message} (h : s.Tidy next) {c : Call} (hc : c.GoesOn next) :
    (s.call c).1.FailsWith Error.Foreign ∧
      (s.call c).2.Tidy (if (s.call c).2.active then c.message? else none) := by
  have hmsg (msg : Message) (hcall : c.message? = some msg) : s.Tidy (some msg) := by
    cases next with
    | none => exact h.begin (some msg)
    | some msg' =>
      rcases hc msg' rfl with hnone | hsome
      · rw [hcall] at hnone
        cases hnone
      · rw [hcall] at hsome
        cases hsome
        exact h
  cases c with
  | encode m msg capacity =>
    obtain ⟨hforeign, htidy⟩ := (hmsg msg rfl).write m (.ofCapacity capacity)
    rw [WriteSession.call, encode_eq]
    exact ⟨hforeign.map _, htidy⟩
  | write m msg cursor => exact (hmsg msg rfl).write m cursor
  | reset => exact ⟨trivial, tidy_reset _ s⟩

theorem Unmodified.tidy {calls : List Call} (h : Unmodified calls) :
    (afterCalls call .new calls).Tidy (inFlight calls) := by
  induction h with
  | nil => exact tidy_reset none .new
  | @snoc calls c h hc ih =>
    rw [inFlight, List.getLast?_concat, afterCalls_append]
    exact (ih.call hc).2

theorem sized_write {m : Marshaller} (h : s.stack.Sized 0 (max 1 limit))
    (hm : m.config.maxNestingDepth ≤ limit) (msg : Message) (cursor : WriteCursor) :
    (s.write m msg cursor).2.1.stack.Sized 0 (max 1 limit) := by
  have hlevels : 0 + 1 + (m.config.maxNestingDepth - 1) ≤ max 1 limit := by omega
  have hrun := Write.sized_putMessage m hlevels msg ⟨s.stack, cursor⟩ h
  rw [write]
  generalize Write.putMessage m (m.config.maxNestingDepth - 1) msg ⟨s.stack, cursor⟩ = x at hrun ⊢
  rcases x with ⟨u, w⟩ | ⟨_ | e, w⟩
  · exact FrameStack.sized_reset hrun.2
  · exact hrun
  · exact FrameStack.sized_reset hrun.2

theorem sized_afterCalls {calls : List Call} (h : ∀ c ∈ calls, c.Shallow limit) :
    (afterCalls call .new calls).stack.Sized 0 (max 1 limit) := by
  refine List.foldlRecOn (motive := fun s : WriteSession => s.stack.Sized 0 (max 1 limit)) calls _
    (FrameStack.sized_empty limit) fun s hs c hc => ?_
  have hc := h c hc
  cases c with
  | encode m msg capacity =>
    rw [call, encode_eq]
    exact sized_write hs hc msg (.ofCapacity capacity)
  | write m msg cursor => exact sized_write hs hc msg cursor
  | reset => exact FrameStack.sized_reset hs.2

end WriteSession

/-- The errors that tell of progress that belongs to another field or to another message never come
up. Whatever bytes a session was given, and in whatever pieces, it never finds anything in a slot
but what the field in flight put there: between calls, each level holds what a field of its kind
takes out of its slots. A session that is handed the same message until it has finished with it
never finds that the message has changed. -/
theorem progress_errors_never_arise :
    (∀ (calls : List ReadSession.Call) (c : ReadSession.Call),
      let s := afterCalls ReadSession.call .new calls
      Trail ReadFrame.Holds s.current s.stack.pool.frames ∧
        (s.call c).1.failure? ≠ some .unexpectedProgress) ∧
    ∀ calls : List WriteSession.Call, WriteSession.Unmodified calls →
      ∀ c : WriteSession.Call, c.GoesOn (WriteSession.inFlight calls) →
        ((afterCalls WriteSession.call .new calls).call c).1.failure? ≠ some .fieldChanged := by
  refine ⟨fun calls c => ?_, fun calls h c hc hfailure => ?_⟩
  · have htidy := ReadSession.tidy_afterCalls calls
    exact ⟨htidy.trail, fun hfailure => Bool.noConfusion ((htidy.call c).1.of_failure? hfailure)⟩
  · exact Bool.noConfusion ((h.tidy.call hc).1.of_failure? hfailure)

/-- A message that stopped in the middle of a byte string, one level down, goes on as it is, but is
refused if that byte string has become shorter. -/
theorem progress_errors_never_arise_halfway :
    let m := Marshaller.ofConfig {} .empty
    let message (bs : Bytes) : Message :=
      .mk 40 [.list (some [.message (.mk 41 [.bytes (some bs)])])]
    let calls : List WriteSession.Call := [.encode m (message [1, 2, 3]) 12]
    let s := afterCalls WriteSession.call .new calls
    WriteSession.Unmodified calls ∧ WriteSession.inFlight calls = some (message [1, 2, 3]) ∧
      (s.call (.encode m (message [1, 2, 3]) 12)).1.failure? ≠ some .fieldChanged ∧
      (s.call (.encode m (message [1]) 12)).1.failure? = some .fieldChanged := by
  intro m message calls s
  have hcalls : WriteSession.Unmodified calls := .snoc .nil (WriteSession.goesOn_nil _)
  have hactive : s.active = true := by decide +kernel
  have hflight : WriteSession.inFlight calls = some (message [1, 2, 3]) := if_pos hactive
  have hchanged : (s.call (.encode m (message [1]) 12)).1.failure? = some .fieldChanged := by
    decide +kernel
  refine ⟨hcalls, hflight, ?_, hchanged⟩
  exact progress_errors_never_arise.2 calls hcalls _ fun msg hmsg =>
    .inr (hflight.symm.trans hmsg)

/-- Pooled frames are cleared, or they belong to the message in flight. Between calls a session is
on the first level. Its pool has at least one frame, and no more than messages may nest, and a
trail leads through it: each level holds a message, the number of fields done tells the field
that is in flight, and the message in flight in that field is the one of the next level; where there
is none, all frames that follow are cleared. Within calls the pool is gone through by an index, as
frames are entered, left, changed and cleared, and this index always is that of a frame. -/
theorem pooled_frames_follow_trail :
    (∀ (calls : List WriteSession.Call) (limit : Nat), WriteSession.Unmodified calls →
      (∀ c ∈ calls, c.Shallow limit) →
      let pool := (afterCalls WriteSession.call .new calls).stack.pool
      pool.depth = 0 ∧ 1 ≤ pool.frames.length ∧ pool.frames.length ≤ max 1 limit ∧
        Trail WriteFrame.Holds (WriteSession.inFlight calls) pool.frames) ∧
    (∀ (calls : List ReadSession.Call) (limit : Nat), (∀ c ∈ calls, c.Shallow limit) →
      let s := afterCalls ReadSession.call .new calls
      s.stack.pool.depth = 0 ∧ 1 ≤ s.stack.pool.frames.length ∧
        s.stack.pool.frames.length ≤ max 1 limit ∧
        Trail ReadFrame.Holds s.current s.stack.pool.frames) ∧
    ∀ (φ : Type) [Inhabited φ] (s : FrameStack φ),
      s.pool.depth < s.pool.frames.length ∧ s.pool.frames[s.pool.depth]? = some s.current ∧
        s.descend.pool = s.pool.forward ∧
        (∀ finished, (s.ascend finished).pool = s.pool.backward finished) ∧
        (∀ g, (s.modify g).pool = s.pool.modify g) ∧ s.reset.pool = s.pool.reset := by
  refine ⟨fun calls limit h hcalls => ?_, fun calls limit hcalls => ?_, fun φ _ s => ?_⟩
  · have hsized := WriteSession.sized_afterCalls hcalls
    refine ⟨hsized.1, ?_, ?_, h.tidy.trail⟩
    · exact Nat.succ_le_of_lt (Nat.lt_of_le_of_lt (Nat.zero_le _) (FrameStack.depth_lt_length _))
    · rw [FrameStack.length_frames_pool]
      exact hsized.2
  · have hsized := ReadSession.sized_afterCalls hcalls
    refine ⟨hsized.1, ?_, ?_, (ReadSession.tidy_afterCalls calls).trail⟩
    · exact Nat.succ_le_of_lt (Nat.lt_of_le_of_lt (Nat.zero_le _) (FrameStack.depth_lt_length _))
    · rw [FrameStack.length_frames_pool]
      exact hsized.2
  · exact ⟨s.depth_lt_length, s.getElem?_depth, s.pool_descend, s.pool_ascend, s.pool_modify,
      s.pool_reset⟩

/-- Three levels are allowed, and two are in use where a message stops in the middle of a byte
string that is one level down. -/
theorem pooled_frames_follow_trail_halfway :
    let m := Marshaller.ofConfig { maxNestingDepth := 3 } .empty
    let msg : Message := .mk 40 [.char 'a', .message (some (.mk 41 [.bytes (some [1, 2, 3])]))]
    let ctx : ReadContext := ⟨m, fun _ => [.bytes false], ⟨[⟨40, [.char, .message (some 41)]⟩]⟩⟩
    let writes : List WriteSession.Call := [.encode m msg 10]
    let reads : List ReadSession.Call := [.decode ctx [40, 97, 0, 41, 3, 0, 0, 0, 1, 2]]
    let written := (afterCalls WriteSession.call .new writes).stack.pool
    let read := (afterCalls ReadSession.call .new reads).stack.pool
    (written.frames.length ≤ 3 ∧ Trail WriteFrame.Holds (some msg) written.frames ∧
      written.frames.map WriteFrame.completed = [1, 0] ∧
      written.frames.map (·.progress.offset) = [0, 2]) ∧
    read.frames.length ≤ 3 ∧
      Trail ReadFrame.Holds (some ⟨40, [.char, .message (some 41)]⟩) read.frames ∧
      read.frames.map (·.fields.length) = [1, 0] ∧
      read.frames.map (·.progress.gathered) = [#[], #[1, 2]] := by
  intro m msg ctx writes reads written read
  have hwrites : WriteSession.Unmodified writes := .snoc .nil (WriteSession.goesOn_nil _)
  have hflight : WriteSession.inFlight writes = some msg :=
    if_pos (by decide +kernel : (afterCalls WriteSession.call .new writes).active = true)
  have hshallow : ∀ c ∈ writes, c.Shallow 3 := List.forall_mem_singleton.mpr (Nat.le_refl 3)
  have hshallow' : ∀ c ∈ reads, c.Shallow 3 := List.forall_mem_singleton.mpr (Nat.le_refl 3)
  obtain ⟨-, -, hlength, htrail⟩ := pooled_frames_follow_trail.1 writes 3 hwrites hshallow
  obtain ⟨-, -, hlength', htrail'⟩ := pooled_frames_follow_trail.2.1 reads 3 hshallow'
  rw [hflight] at htrail
  exact ⟨⟨hlength, htrail, by decide +kernel, by decide +kernel⟩, hlength', htrail', rfl, rfl⟩

end WireCodec
