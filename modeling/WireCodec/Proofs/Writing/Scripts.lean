import WireCodec.Proofs.Writing.Delivery
import WireCodec.Proofs.Writing.Following

/-!
# Routines and their scripts

Each routine of the writer writes the script of what it is given, whatever room and whatever
marshaller each call has (`Write.writes_putMessage`). A value is the one place where the marshaller
counts: it is encoded by the call that reaches it, and from then on the frame holds its bytes.
-/

namespace WireCodec

namespace WriteFrame

/-- The frame once the length of a byte string, or the node of a grid id, is written. -/
def marked (f : WriteFrame) : WriteFrame :=
  { f with progress := { f.progress with headDone := true } }

/-- The frame once a value is encoded. -/
def stagedWith (f : WriteFrame) (bs : Bytes) : WriteFrame :=
  { f with progress := { f.progress with staged := some bs } }

/-- The frame once a byte string is written. -/
def chunkDone (f : WriteFrame) : WriteFrame :=
  { f with progress := { f.progress with headDone := false, offset := 0, staged := none } }

/-- No item is in flight. -/
structure Idle (f : WriteFrame) : Prop where
  unmarked : f.progress.headDone = false
  unwritten : f.progress.offset = 0
  unstaged : f.progress.staged = none

theorem Idle.chunkDone_eq {f : WriteFrame} (h : f.Idle) : f.chunkDone = f := by
  rw [chunkDone, ← h.unmarked, ← h.unwritten, ← h.unstaged]

theorem Idle.unmark_eq {f : WriteFrame} (h : f.Idle) :
    { f with progress := { f.marked.progress with headDone := false } } = f := by
  rw [← h.unmarked]
  rfl

end WriteFrame

namespace Write

open Step Segment

variable {config : Config} {f : WriteFrame}

/-! ## Byte strings, ids and values -/

/-- A byte string goes on from the offset that it has got to. -/
theorem follows_stream {above : List WriteFrame} {s : FrameStack WriteFrame} {offset : Nat}
    (bs : Bytes) (hoffset : offset ≤ bs.length)
    (hs : s.At above { f with progress := { f.progress with offset } }) (calls : Nat) :
    Follows config (fun _ => stream bs) (FrameStack.At above f.chunkDone) calls s
      [.stream (bs.drop offset)] := by
  induction calls generalizing s offset with
  | zero => trivial
  | succ n ih =>
    intro m _ cursor
    have hw : Writer.offset ⟨s, cursor⟩ = offset := congrArg (·.progress.offset) hs.current
    have hrun := stream_apply bs ⟨s, cursor⟩
    rw [hw, if_neg (Nat.not_lt.mpr hoffset)] at hrun
    by_cases hroom : (bs.drop offset).length ≤ cursor.remaining
    · refine ⟨bs.drop offset, .done, _, ?_, hrun.trans (if_pos hroom),
        hs.modify WriteFrame.chunkDone⟩
      simpa using Drives.stream hroom .done
    · have hlt := Nat.lt_of_not_le hroom
      have hreach : Writer.reach ⟨s, cursor⟩ (bs.drop offset) = offset + cursor.remaining := by
        rw [Writer.reach, hw, Nat.min_eq_left (Nat.le_of_lt hlt)]
      have hnext : offset + cursor.remaining ≤ bs.length := by
        rw [List.length_drop] at hlt
        omega
      rw [hreach] at hrun
      let w : Writer := .streamed ⟨s, cursor⟩ (bs.drop offset) (offset + cursor.remaining)
      refine ⟨_, _, w.stack, .streamStopped hlt, ?_, ?_⟩
      · rw [WriteCursor.putPartial_take]
        exact hrun.trans (if_neg hroom)
      · rw [List.drop_drop]
        exact ih hnext (hs.modify fun f => { f with progress :=
          { f.progress with offset := offset + cursor.remaining } })

theorem writes_stream (h : f.progress.offset = 0) (bs : Bytes) :
    Writes config f (fun _ => stream bs) [.stream bs] f.chunkDone := by
  intro above s hs calls
  have hf : { f with progress := { f.progress with offset := 0 } } = f := by rw [← h]
  exact follows_stream bs (Nat.zero_le _) (hf.symm ▸ hs) calls

theorem writes_putLength (f : WriteFrame) (n : Nat) :
    Writes config f (fun _ => putLength n) (ofResult (Layout.length n)) f := .put_lift f _

theorem writes_putChunk (h : f.progress.headDone = false) (h' : f.progress.offset = 0)
    (bs : Bytes) : Writes config f (fun _ => putChunk bs) (chunk bs) f.chunkDone := by
  have hlength : Writes config f (fun _ => do putLength bs.length; markHead)
      (ofResult (Layout.length bs.length)) f.marked :=
    (writes_putLength f bs.length).bind_modifyProgress _
  have hstream : Writes config f.marked (fun _ => stream bs) [.stream bs] f.chunkDone :=
    writes_stream (f := f.marked) h' bs
  simp only [putChunk_eq]
  exact hlength.once_bind hstream (fun _ _ _ => rfl) (fun w hw => by rw [headDone, hw, h])
    (headDone_of_suspended (resumable_putLength _)) (fun w hw => by rw [headDone, hw]; rfl)
    headDone_of_stream

theorem writes_putNull (f : WriteFrame) : Writes config f (fun _ => putNull) null f := .put f _

theorem writes_putChar (f : WriteFrame) (c : Char) :
    Writes config f (fun _ => putChar c) (ofResult (Encode.char c)) f := .put_lift f _

theorem writes_chunk (hf : f.Idle) (bs : Bytes) :
    Writes config f (fun _ => putChunk bs) (chunk bs) f := by
  have hrun : Writes config f (fun _ => putChunk bs) (chunk bs) f.chunkDone :=
    writes_putChunk hf.unmarked hf.unwritten bs
  rwa [hf.chunkDone_eq] at hrun

theorem writes_putBytes (hf : f.Idle) (bs : Option Bytes) :
    Writes config f (fun _ => putBytes bs) ((bs.map chunk).getD null) f := by
  cases bs with
  | none => exact writes_putNull f
  | some bs => exact writes_chunk hf bs

theorem writes_putGrid (hf : f.Idle) (nested : Message → List Segment) (g : GridId) :
    Writes config f (fun _ => putGrid (some g)) (ofItem nested (.grid g)) f := by
  have hnode : Writes config f (fun _ => do put (Layout.nullableUuid (some g.node)); markHead)
      [.whole (Layout.nullableUuid (some g.node))] f.marked :=
    (Writes.put f _).bind_modifyProgress _
  have hcounter : Writes config f.marked (fun _ => putCounter g)
      [.whole (Encode.int64 g.counter.toBitVec)]
      { f with progress := { f.marked.progress with headDone := false } } :=
    (Writes.put f.marked _).bind_modifyProgress _
  rw [hf.unmark_eq] at hcounter
  simp only [putGrid_eq]
  exact hnode.once_bind hcounter (fun _ _ _ => rfl)
    (fun w hw => by rw [headDone, hw, hf.unmarked]) (headDone_of_suspended (resumable_put _))
    (fun w hw => by rw [headDone, hw]; rfl) headDone_of_putCounter

theorem writes_putGrid_none (hf : f.Idle) :
    Writes config f (fun _ => putGrid none) [.whole (Layout.nullableUuid none)] f := by
  intro above s hs calls
  refine (Writes.put f (Layout.nullableUuid none) above s hs calls).of_eq
    (P := fun s => s.current.progress.headDone = false)
    (fun m _ s cursor hhead => ?_) (fun m s cursor w hhead hstop => ?_) ?_
  · rw [putGrid_none_apply, headDone, hhead]
    rfl
  · rw [(resumable_put _).frame.error hstop, hhead]
  · rw [hs.current, hf.unmarked]

/-- A value that is encoded is written on, whatever the marshaller makes of it by now. -/
theorem writes_putStaged (hf : f.Idle) (encoded : Marshaller → Except Error Bytes) :
    Writes config f (fun m => putStaged (encoded m)) [.value encoded] f := by
  intro above s hs calls
  cases calls with
  | zero => trivial
  | succ n =>
    intro m hm cursor
    have hstage : putStaged (encoded m) ⟨s, cursor⟩ = stage (encoded m) ⟨s, cursor⟩ := by
      rw [putStaged_apply, Write.staged, hs.current, hf.unstaged]
    -- only this first call asks its marshaller: from here on the frame holds the bytes
    refine .value ?_
    cases hencoded : encoded m with
    | error e =>
      refine ⟨[], .failed e, s, .failed, hstage.trans ?_, trivial⟩
      rw [hencoded, WriteCursor.putPartial_nil]
      rfl
    | ok bs =>
      have hchunk : Writes config (f.stagedWith bs) (fun _ => putChunk bs) (chunk bs) f.chunkDone :=
        writes_putChunk (f := f.stagedWith bs) hf.unmarked hf.unwritten bs
      rw [hf.chunkDone_eq] at hchunk
      have hs' : (stagedWriter ⟨s, cursor⟩ bs).stack.At above (f.stagedWith bs) :=
        hs.modify (·.stagedWith bs)
      refine .of_eq ((hchunk above _ hs' (n + 1) m hm cursor).imp
        fun s' cursor' left hstop hleft => ?_) rfl (hstage.trans (by rw [hencoded]; rfl))
      refine hleft.of_eq (P := fun s => s.current.progress.staged = some bs)
        (fun m _ s cursor hs => ?_) (fun m s cursor w hs hstop => ?_) ?_
      · rw [putStaged_apply, Write.staged, hs]
      · exact (staged_of_putChunk hstop).trans hs
      · exact staged_of_putChunk hstop

/-! ## Lists and maps -/

/-- The frame of a body that has written so many fields. -/
def bodyFrame (n : Nat) : WriteFrame := ⟨n, true, default⟩

/-- The frame of a body that has written so many fields, and so many items of the next one. -/
def itemFrame (n i : Nat) : WriteFrame := ⟨n, true, { (default : WriteProgress) with
  started := true, index := i }⟩

/-- The frame of a body that has written so many fields, so many entries of the next one, and one
more key. -/
def valueFrame (n i : Nat) : WriteFrame := ⟨n, true, { (default : WriteProgress) with
  started := true, index := i, keyDone := true }⟩

theorem idle_bodyFrame (n : Nat) : (bodyFrame n).Idle := ⟨rfl, rfl, rfl⟩

theorem idle_itemFrame (n i : Nat) : (itemFrame n i).Idle := ⟨rfl, rfl, rfl⟩

theorem idle_valueFrame (n i : Nat) : (valueFrame n i).Idle := ⟨rfl, rfl, rfl⟩

/-- A nested message is written as a script, and leaves the frame around it as it is. -/
structure Nests (config : Config) (nested : Marshaller → Message → Write Unit)
    (part : Message → List Segment) (msg : Message) : Prop where
  resumable : ∀ m, Resumable Writer.outer (nested m msg)
  writes : ∀ f, Writes config f (fun m => nested m msg) (part msg) f

section

variable {nested : Marshaller → Message → Write Unit} {part : Message → List Segment} {n : Nat}

theorem writes_putItem (hf : f.Idle) {x : Item}
    (h : ∀ msg ∈ x.messages, Nests config nested part msg) :
    Writes config f (fun m => putItem (nested m) x) (ofItem part x) f := by
  cases x with
  | primitive k x => exact .put f _
  | char c => exact writes_putChar f c
  | text s => exact writes_chunk hf _
  | uuid u => exact .put f _
  | grid g => exact writes_putGrid hf part g
  | message msg => exact (h msg (List.mem_singleton_self msg)).writes f

theorem counts_listStep {x : Item} (h : ∀ msg ∈ x.messages, Nests config nested part msg) :
    Counts config index (itemFrame n) (fun m => listStep (nested m)) (ofItem part) x where
  writes i := (writes_putItem (idle_itemFrame n i) h).bind_modifyProgress _
  counted i w hw := by rw [index, hw]; rfl
  paused := (counted_listStep fun msg hmsg => (h msg hmsg).resumable _).paused

theorem counts_entryStep {e : Item × Item}
    (h : ∀ msg ∈ e.1.messages ++ e.2.messages, Nests config nested part msg) :
    Counts config index (itemFrame n) (fun m => entryStep (nested m)) (ofEntry part) e := by
  have hk (msg : Message) (hmsg : msg ∈ e.1.messages) := h msg (List.mem_append_left _ hmsg)
  have hv (msg : Message) (hmsg : msg ∈ e.2.messages) := h msg (List.mem_append_right _ hmsg)
  refine ⟨fun i => ?_, fun i w hw => by rw [index, hw]; rfl,
    (counted_entryStep (fun msg hmsg => (hk msg hmsg).resumable _)
      fun msg hmsg => (hv msg hmsg).resumable _).paused⟩
  have hkey : Writes config (itemFrame n i) (fun m => writeKey (nested m) e.1) (ofItem part e.1)
      (valueFrame n i) := (writes_putItem (idle_itemFrame n i) hk).bind_modifyProgress _
  have hvalue : Writes config (valueFrame n i) (fun m => writeValue (nested m) e.2)
      (ofItem part e.2) (itemFrame n (i + 1)) :=
    (writes_putItem (idle_valueFrame n i) hv).bind_modifyProgress _
  exact hkey.once_bind hvalue (fun _ _ _ => rfl) (fun w hw => by rw [keyDone, hw]; rfl)
    (keyDone_of_writeKey fun msg hmsg => (hk msg hmsg).resumable _)
    (fun w hw => by rw [keyDone, hw]; rfl)
    (keyDone_of_writeValue fun msg hmsg => (hv msg hmsg).resumable _)

/-- The number of items, and then the items. -/
theorem writes_counting {β : Type} {step : Marshaller → β → Write Unit}
    {segments : β → List Segment} {xs : List β}
    (hcounted : ∀ m, ∀ x ∈ xs, Counted counted index (step m) x)
    (hsteps : ∀ x ∈ xs, Counts config index (itemFrame n) step segments x) :
    Writes config (bodyFrame n)
      (fun m => do once started (writeCount xs.length); forEachFrom index (step m) xs)
      (ofResult (Layout.length xs.length) ++ xs.flatMap segments) (itemFrame n xs.length) := by
  have hcount : Writes config (bodyFrame n) (fun _ => writeCount xs.length)
      (ofResult (Layout.length xs.length)) (itemFrame n 0) :=
    (writes_putLength _ _).bind_modifyProgress _
  have hitems : Writes config (itemFrame n 0) (fun m => forEachFrom index (step m) xs)
      (xs.flatMap segments) (itemFrame n xs.length) :=
    writes_forEachFrom (fun _ _ _ => rfl) (fun w hw => by rw [index, hw]; rfl) hsteps
  exact hcount.once_bind hitems (fun _ _ _ => rfl) (fun w hw => by rw [started, hw]; rfl)
    started_of_writeCount (fun w hw => by rw [started, hw]; rfl)
    (started_of_forEachFrom (hcounted _))

/-- A field leaves its progress in any state. -/
theorem writes_putList {items : Option (List Item)}
    (h : ∀ xs, items = some xs → ∀ x ∈ xs, ∀ msg ∈ x.messages, Nests config nested part msg) :
    ∃ progress, Writes config (bodyFrame n) (fun m => putList (nested m) items)
      (ofList part items) ⟨n, true, progress⟩ := by
  cases items with
  | none => exact ⟨_, writes_putNull _⟩
  | some xs =>
    simp only [putList_eq]
    exact ⟨_, writes_counting
      (fun m x hx => counted_listStep fun msg hmsg => (h xs rfl x hx msg hmsg).resumable m)
      fun x hx => counts_listStep (h xs rfl x hx)⟩

theorem writes_putMap {entries : Option (List (Item × Item))}
    (h : ∀ es, entries = some es → ∀ e ∈ es, ∀ msg ∈ e.1.messages ++ e.2.messages,
      Nests config nested part msg) :
    ∃ progress, Writes config (bodyFrame n) (fun m => putMap (nested m) entries)
      (ofMap part entries) ⟨n, true, progress⟩ := by
  cases entries with
  | none => exact ⟨_, writes_putNull _⟩
  | some es =>
    simp only [putMap_eq]
    exact ⟨_, writes_counting
      (fun m e he => counted_entryStep
        (fun msg hmsg => (h es rfl e he msg (List.mem_append_left _ hmsg)).resumable m)
        fun msg hmsg => (h es rfl e he msg (List.mem_append_right _ hmsg)).resumable m)
      fun e he => counts_entryStep (h es rfl e he)⟩

/-! ## Fields and levels -/

theorem writes_putField {x : Field} (hx : ∀ readings, x ≠ .probe readings)
    (h : ∀ msg ∈ x.messages, Nests config nested part msg) :
    ∃ progress, Writes config (bodyFrame n) (fun m => putField (nested m) m x) (ofField part x)
      ⟨n, true, progress⟩ := by
  have hidle := idle_bodyFrame n
  cases x with
  | primitive k x => exact ⟨_, .put _ _⟩
  | char c => exact ⟨_, writes_putChar _ c⟩
  | text s =>
    have hrun : Writes config (bodyFrame n) (fun _ => putBytes (s.map Utf8.encode))
        (((s.map Utf8.encode).map chunk).getD null) (bodyFrame n) := writes_putBytes hidle _
    rw [Option.map_map] at hrun
    exact ⟨_, hrun⟩
  | bytes bs => exact ⟨_, writes_putBytes hidle bs⟩
  | uuid u => exact ⟨_, .put _ _⟩
  | grid g =>
    cases g with
    | none => exact ⟨_, writes_putGrid_none hidle⟩
    | some g => exact ⟨_, writes_putGrid hidle part g⟩
  | bits s =>
    refine writes_putList fun xs hxs y hy msg hmsg => ?_
    obtain ⟨s, -, rfl⟩ := Option.map_eq_some_iff.mp hxs
    obtain ⟨word, -, rfl⟩ := List.mem_map.mp hy
    cases hmsg
  | value v =>
    simp only [putField, ofField]
    split
    · exact ⟨_, writes_putNull _⟩
    · exact ⟨_, writes_putStaged hidle fun m => m.marshalValue v⟩
  | object t x => exact ⟨_, writes_putStaged hidle fun m => m.marshalErased t x⟩
  | message msg =>
    cases msg with
    | none => exact ⟨_, .put _ _⟩
    | some msg => exact ⟨_, (h msg (List.mem_singleton_self msg)).writes _⟩
  | list items =>
    refine writes_putList fun xs hxs y hy msg hmsg => h msg ?_
    subst hxs
    exact List.mem_flatMap.mpr ⟨y, hy, hmsg⟩
  | map entries =>
    refine writes_putMap fun es hes e he msg hmsg => h msg ?_
    subst hes
    exact List.mem_flatMap.mpr ⟨e, he, hmsg⟩
  | stuck => exact ⟨_, .suspend _ (bodyFrame n)⟩
  | probe readings => exact absurd rfl (hx readings)
  | skipped initial content => exact ⟨_, .pure _⟩

theorem counts_fieldStep {x : Field} (hx : ∀ readings, x ≠ .probe readings)
    (h : ∀ msg ∈ x.messages, Nests config nested part msg) :
    Counts config completed bodyFrame (fun m => fieldStep (nested m) m) (ofField part) x where
  writes i := by
    obtain ⟨progress, hfield⟩ := writes_putField (n := i) hx h
    exact hfield.bind_modifyFrame _
  counted i w hw := by rw [completed, hw]; rfl
  paused := (counted_fieldStep _ hx fun msg hmsg => (h msg hmsg).resumable _).paused

theorem writes_putBody {msg : Message} (hmsg : msg.Steady)
    (h : ∀ inner : Message, inner.Steady → Nests config nested part inner) :
    Writes config default (fun m => putBody (nested m) m msg) (ofBody part msg)
      (bodyFrame msg.sent.length) := by
  obtain @⟨type, fields, hsteady, hnested⟩ := hmsg
  let msg := Message.mk type fields
  have hsent (x : Field) (hx : x ∈ msg.sent) : x ∈ fields := Message.mem_fields_of_mem_sent hx
  have hinner (x : Field) (hx : x ∈ msg.sent) (inner : Message) (hi : inner ∈ x.messages) :=
    h inner (hnested x (hsent x hx) inner hi)
  have hheader : Writes config default (fun _ => writeHeader type) [.whole [type]] (bodyFrame 0) :=
    (Writes.put default [type]).bind_modifyFrame _
  have hfields : Writes config (bodyFrame 0)
      (fun m => forEachFrom completed (fieldStep (nested m) m) msg.sent)
      (msg.sent.flatMap (ofField part)) (bodyFrame msg.sent.length) :=
    writes_forEachFrom (fun _ _ _ => rfl) (fun w hw => by rw [completed, hw]; rfl)
      fun x hx => counts_fieldStep (hsteady x (hsent x hx)) (hinner x hx)
  simp only [putBody_eq]
  exact hheader.once_bind hfields (fun _ _ _ => rfl) (fun w hw => by rw [headerWritten, hw]; rfl)
    headerWritten_of_writeHeader (fun w hw => by rw [headerWritten, hw]; rfl)
    (headerWritten_of_forEachFrom fun x hx => counted_fieldStep _ (hsteady x (hsent x hx))
      fun inner hi => (hinner x hx inner hi).resumable _)

end

/-- Where a message one level down has stopped, its frames are found again. -/
theorem follows_descend {p : Marshaller → Write Unit} {above : List WriteFrame} {g : WriteFrame}
    {s : FrameStack WriteFrame} {segments : List Segment} {calls : Nat}
    (hkeep : ∀ m, Keeps (fun w => w.stack.above) (p m)) (hs : s.descend.above = f :: above)
    (h : Follows config p (FrameStack.At (f :: above) g) calls s.descend segments) :
    Follows config (fun m => descend (p m)) (FrameStack.At above f) calls s segments := by
  induction calls generalizing s segments with
  | zero => trivial
  | succ n ih =>
    intro m hm cursor
    obtain ⟨out, o, s', hdrives, hrun, hleaves⟩ := h m hm cursor
    have hdown : p m (Writer.down ⟨s, cursor⟩) = o.result ⟨s', cursor.putPartial out⟩ := hrun
    cases o with
    | done =>
      refine ⟨out, .done, s'.ascend true, hdrives, ?_, hleaves.ascend⟩
      exact (descend_apply (p m) _).trans (by rw [hdown]; rfl)
    | failed e =>
      refine ⟨out, .failed e, s'.ascend false, hdrives, ?_, trivial⟩
      exact (descend_apply (p m) _).trans (by rw [hdown]; rfl)
    | stopped left =>
      have habove : s'.above = s.descend.above := (hkeep m).error hdown
      have hback : (s'.ascend false).descend = s' := FrameStack.descend_ascend habove
      refine ⟨out, .stopped left, s'.ascend false, hdrives, ?_, ?_⟩
      · exact (descend_apply (p m) _).trans (by rw [hdown]; rfl)
      · exact ih (by rw [hback, habove, hs]) (hback.symm ▸ hleaves)

/-- A message one level down leaves the frame above it as it is. -/
theorem writes_descend {p : Marshaller → Write Unit} {segments : List Segment} {g : WriteFrame}
    (hkeep : ∀ m, Keeps (fun w => w.stack.above) (p m)) (h : Writes config default p segments g)
    (f : WriteFrame) : Writes config f (fun m => descend (p m)) segments f := by
  intro above s hs calls
  obtain ⟨hcurrent, hcleared⟩ := hs.cleared.descend
  have habove : s.descend.above = f :: above := by
    rw [FrameStack.above_descend, hs.current, hs.above]
  exact follows_descend hkeep habove (h (f :: above) s.descend ⟨habove, hcurrent, hcleared⟩ calls)

theorem writes_putMessage (config : Config) (levels : Nat) {msg : Message} (h : msg.Steady) :
    Writes config default (fun m => putMessage m levels msg) (ofMessage config levels msg)
      (bodyFrame msg.sent.length) := by
  induction levels generalizing msg with
  | zero =>
    exact writes_putBody h fun _ _ => ⟨fun _ => .of_settled (.fail _),
      fun f => .fail (fun m hm => by rw [hm]) f f⟩
  | succ levels ih =>
    refine writes_putBody h fun inner hinner => ⟨fun m => ?_, fun f => ?_⟩
    · exact outer_of_descend (resumable_putMessage m levels hinner)
    · exact writes_descend (fun m => (resumable_putMessage m levels hinner).frame) (ih hinner) f

theorem writes_writeMessage (config : Config) {msg : Message} (h : msg.Steady) :
    Writes config default (fun m => writeMessage m msg) (msg.segments config)
      (bodyFrame msg.sent.length) := by
  intro above s hs calls
  exact (writes_putMessage config _ h above s hs calls).of_eq (P := fun _ => True)
    (fun m hm _ _ _ => by rw [writeMessage, hm]) (fun _ _ _ _ _ _ => trivial) trivial

/-! ## Room enough -/

/-- In a buffer with room for all of it, a call writes the emission that its segments stand for, and
ends as that does. -/
theorem Goes.whole {leave : FrameStack WriteFrame → Prop}
    {follow : FrameStack WriteFrame → List Segment → Prop} {m : Marshaller} {p : Write Unit}
    {w : Writer} {segments : List Segment} {e : Emission} (hp : Goes leave follow m p w segments)
    (he : StandsFor m segments e) (hroom : e.bytes.length ≤ w.cursor.remaining) :
    ∃ w', p w = ends e.failure w' ∧ w'.cursor = w.cursor.putPartial e.bytes := by
  obtain ⟨out, o, s, hdrives, hrun, -⟩ := hp
  obtain ⟨hready, rfl⟩ := he
  have hunder := hdrives.under_eq (f := fun _ => m) (k := 0) fun _ _ => rfl
  cases o with
  | stopped left => exact absurd hroom (Nat.not_le.mpr (hdrives.exceeds hready 0))
  | done | failed e =>
    obtain ⟨hbytes, hfailure⟩ := hunder
    have hout : (emission m segments).bytes = out := hbytes.trans (List.append_nil out)
    exact ⟨_, by rw [emission, hfailure]; exact hrun, by rw [hout]⟩

end Write

end WireCodec
