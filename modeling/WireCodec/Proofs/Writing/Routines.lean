import WireCodec.Proofs.Writing.Steps

/-!
The routines of the writer that write one item or one value can be stopped anywhere: where room
runs out, what they note in the current frame leads them on.
-/

namespace WireCodec

/-- The progress of the field in flight less what belongs to the item in flight. -/
def WriteProgress.outer (p : WriteProgress) : Bool × Nat × Bool := (p.started, p.index, p.keyDone)

/-- What a routine that writes an item leaves alone: the levels above, the fields written, and how
far the list or the map around the item is written. -/
def FrameStack.beside (s : FrameStack WriteFrame) :
    List WriteFrame × (Nat × Bool) × Bool × Nat × Bool :=
  (s.above, (s.current.completed, s.current.headerWritten), s.current.progress.outer)

/-- What a routine that writes an item leaves alone of a writer. -/
def Writer.outer (w : Writer) : List WriteFrame × (Nat × Bool) × Bool × Nat × Bool :=
  w.stack.beside

/-- How far a byte string is written. -/
def Writer.offset (w : Writer) : Nat := w.stack.current.progress.offset

/-- The writer after writing what fits of the rest of a byte string, up to an offset. -/
def Writer.streamed (w : Writer) (left : Bytes) (offset : Nat) : Writer where
  stack := w.stack.modify fun f => { f with progress := { f.progress with offset } }
  cursor := w.cursor.putPartial left

/-- How far a byte string is written after writing what fits of its rest. -/
def Writer.reach (w : Writer) (left : Bytes) : Nat :=
  w.offset + min w.cursor.remaining left.length

/-- The writer after writing all of the rest of a byte string. -/
def Writer.chunkDone (w : Writer) (left : Bytes) : Writer where
  stack := w.stack.modify fun f => { f with progress :=
    { f.progress with headDone := false, offset := 0, staged := none } }
  cursor := w.cursor.putPartial left

namespace Write

open Step

variable {α : Type} {w w' : Writer} {bs : Bytes}

/-- A routine that leaves all frames alone leaves alone what is around an item. -/
theorem outer_of_stack {p : Write α} (h : Resumable Writer.stack p) : Resumable Writer.outer p :=
  h.comp FrameStack.beside

/-- What fits only with more room exceeds the room there was. -/
theorem exceeds_putPartial {c : WriteCursor} {room : Nat} (h : ¬ bs.length ≤ c.remaining)
    (h' : bs.length ≤ (c.extend [] room).remaining) :
    c.Exceeds ((c.extend [] room).putPartial bs) := by
  have := c.fits
  rw [WriteCursor.remaining_extend] at h'
  rw [WriteCursor.Exceeds, WriteCursor.size_putPartial, WriteCursor.size_extend,
    WriteCursor.remaining_extend, List.length_nil]
  rw [WriteCursor.remaining] at h h' ⊢
  omega

theorem still_put (bs : Bytes) : Still (put bs) := by
  intro w w' h
  rw [put_apply] at h
  split at h
  · cases h
  · cases h
    rfl

theorem resumable_put (bs : Bytes) : Resumable Writer.stack (put bs) where
  extension := by
    intro w _
    by_cases h : bs.length ≤ w.cursor.remaining
    · refine extendsAt_of_ok () (w.wrote_precedes bs) fun before room => ?_
      have h' : bs.length ≤ (w.extend before room).cursor.remaining := by
        rw [Writer.extend_cursor, WriteCursor.remaining_extend]
        omega
      rw [put_apply, if_pos h', Writer.wrote, Writer.extend_cursor,
        WriteCursor.putPartial_extend (.inl h)]
      rfl
    · refine extendsAt_of_suspended (.refl _) (fun before => ?_) fun {room x t} ht => ?_
      · rw [put_apply, if_neg]
        rwa [Writer.extend_cursor, WriteCursor.remaining_extend]
      · rw [put_apply] at ht
        split at ht
        · next hroom =>
          cases ht
          exact exceeds_putPartial h hroom
        · cases ht
  frame := by
    intro w
    by_cases h : bs.length ≤ w.cursor.remaining
    · rw [put_apply, if_pos h]
      rfl
    · rw [put_apply, if_neg h]
  resumption := .of_still (still_put bs)

/-! ## Byte strings -/

/-- Writes a byte string from an offset on. -/
def streamFrom (bs : Bytes) (offset : Nat) : Write Unit := do
  let n ← putPartial (bs.drop offset)
  modifyProgress fun p => { p with offset := offset + n }
  if offset + n < bs.length then throw .suspended
  modifyProgress fun p => { p with headDone := false, offset := 0, staged := none }

/-- Writes what is still to be written of a byte string after its length. -/
def stream (bs : Bytes) : Write Unit := do
  let offset := (← progress).offset
  if bs.length < offset then fail .fieldChanged
  streamFrom bs offset

theorem putPartial_apply (bs : Bytes) (w : Writer) :
    putPartial bs w = .ok (min w.cursor.remaining bs.length) (w.wrote bs) := by
  have hcount : (w.cursor.putPartial bs).position - w.cursor.position =
      min w.cursor.remaining bs.length := by
    rw [WriteCursor.position, WriteCursor.position, WriteCursor.size_putPartial]
    omega
  rw [← hcount]
  rfl

theorem streamFrom_apply (bs : Bytes) (w : Writer) (h : w.offset ≤ bs.length) :
    streamFrom bs w.offset w = if (bs.drop w.offset).length ≤ w.cursor.remaining
      then .ok () (w.chunkDone (bs.drop w.offset))
      else .error .suspended (w.streamed (bs.drop w.offset) (w.reach (bs.drop w.offset))) := by
  have hcond : w.offset + min w.cursor.remaining (bs.drop w.offset).length < bs.length ↔
      ¬ (bs.drop w.offset).length ≤ w.cursor.remaining := by
    rw [List.length_drop]
    omega
  rw [streamFrom, bind_ok (putPartial_apply _ w), modifyProgress_bind]
  by_cases hfits : (bs.drop w.offset).length ≤ w.cursor.remaining
  · rw [if_pos hfits, if_neg (not_not_intro hfits ∘ hcond.mp)]
    rfl
  · rw [if_neg hfits, if_pos (hcond.mpr hfits)]
    rfl

theorem stream_apply (bs : Bytes) (w : Writer) :
    stream bs w = if bs.length < w.offset then .error (.failed .fieldChanged) w
      else if (bs.drop w.offset).length ≤ w.cursor.remaining
        then .ok () (w.chunkDone (bs.drop w.offset))
        else .error .suspended (w.streamed (bs.drop w.offset) (w.reach (bs.drop w.offset))) := by
  have hrun : stream bs w = (if bs.length < w.offset
      then fail .fieldChanged >>= fun _ : PUnit => streamFrom bs w.offset
      else streamFrom bs w.offset) w := rfl
  by_cases hchanged : bs.length < w.offset
  · rw [hrun, if_pos hchanged, if_pos hchanged]
    rfl
  · rw [hrun, if_neg hchanged, if_neg hchanged, streamFrom_apply bs w (Nat.le_of_not_lt hchanged)]

theorem offset_extend (w : Writer) (before : Bytes) (room : Nat) :
    (w.extend before room).offset = w.offset := rfl

theorem streamed_extend (w : Writer) (left before : Bytes) (offset : Nat) :
    (w.extend before 0).streamed left offset = (w.streamed left offset).extend before 0 := by
  simp only [Writer.streamed, Writer.extend, WriteCursor.putPartial_extend (.inr rfl)]

theorem reach_extend (w : Writer) (left before : Bytes) :
    (w.extend before 0).reach left = w.reach left := by
  rw [Writer.reach, Writer.extend_cursor, WriteCursor.remaining_extend]
  rfl

theorem chunkDone_extend {left : Bytes} (h : left.length ≤ w.cursor.remaining) (before : Bytes)
    (room : Nat) :
    (w.extend before room).chunkDone left = (w.chunkDone left).extend before room := by
  simp only [Writer.chunkDone, Writer.extend, WriteCursor.putPartial_extend (.inl h)]

section

variable {left : Bytes} {offset room : Nat}

theorem offset_streamed (h : w.cursor.remaining < left.length) :
    ((w.streamed left (w.reach left)).extend [] room).offset = w.offset + w.cursor.remaining := by
  change w.offset + min w.cursor.remaining left.length = _
  omega

theorem remaining_streamed (h : w.cursor.remaining < left.length) :
    ((w.streamed left offset).extend [] room).cursor.remaining = room := by
  rw [Writer.extend_cursor, WriteCursor.remaining_extend, Writer.streamed,
    WriteCursor.remaining_putPartial]
  omega

theorem reach_streamed (h : w.cursor.remaining < left.length) :
    ((w.streamed left (w.reach left)).extend [] room).reach (left.drop w.cursor.remaining) =
      (w.extend [] room).reach left := by
  rw [Writer.reach, offset_streamed h, remaining_streamed h, Writer.reach, offset_extend,
    Writer.extend_cursor, WriteCursor.remaining_extend, List.length_drop]
  omega

/-- Writing what fits and then all of the rest is writing all. -/
theorem chunkDone_streamed (h : w.cursor.remaining < left.length) :
    ((w.streamed left offset).extend [] room).chunkDone (left.drop w.cursor.remaining) =
      (w.extend [] room).chunkDone left := by
  have hcursor := w.cursor.putPartial_putPartial left room (Nat.le_of_lt h)
  simp only [Writer.chunkDone, Writer.extend, Writer.streamed, hcursor]
  rfl

/-- Writing what fits and then what fits with more room is writing what fits with more room. -/
theorem streamed_streamed {n : Nat} (h : w.cursor.remaining < left.length) :
    ((w.streamed left offset).extend [] room).streamed (left.drop w.cursor.remaining) n =
      (w.extend [] room).streamed left n := by
  have hcursor := w.cursor.putPartial_putPartial left room (Nat.le_of_lt h)
  simp only [Writer.extend, Writer.streamed, hcursor]
  rfl

end

theorem resumable_stream (bs : Bytes) : Resumable Writer.outer (stream bs) where
  extension := by
    intro w _
    by_cases hchanged : bs.length < w.offset
    · refine extendsAt_of_failed .fieldChanged w fun before room => ?_
      rw [stream_apply, offset_extend, if_pos hchanged]
    · by_cases hfits : (bs.drop w.offset).length ≤ w.cursor.remaining
      · have hc : w.cursor.Precedes (w.chunkDone (bs.drop w.offset)).cursor :=
          w.wrote_precedes (bs.drop w.offset)
        refine extendsAt_of_ok () hc fun before room => ?_
        have hfits' : (bs.drop w.offset).length ≤ (w.extend before room).cursor.remaining := by
          rw [Writer.extend_cursor, WriteCursor.remaining_extend]
          omega
        rw [stream_apply, offset_extend, if_neg hchanged, if_pos hfits', chunkDone_extend hfits]
      · have hc : w.cursor.Precedes
            (w.streamed (bs.drop w.offset) (w.reach (bs.drop w.offset))).cursor :=
          w.wrote_precedes (bs.drop w.offset)
        refine extendsAt_of_suspended hc (fun before => ?_) fun {room x t} ht => ?_
        · rw [stream_apply, offset_extend, if_neg hchanged, if_neg, reach_extend, streamed_extend]
          rwa [Writer.extend_cursor, WriteCursor.remaining_extend]
        · rw [stream_apply, offset_extend, if_neg hchanged] at ht
          split at ht
          · next hroom =>
            cases ht
            rw [Writer.extend_cursor] at hroom
            exact exceeds_putPartial hfits hroom
          · cases ht
  frame := by
    intro w
    rw [stream_apply]
    by_cases hchanged : bs.length < w.offset
    · rw [if_pos hchanged]
    · by_cases hfits : (bs.drop w.offset).length ≤ w.cursor.remaining
      · rw [if_neg hchanged, if_pos hfits]
        rfl
      · rw [if_neg hchanged, if_neg hfits]
        rfl
  resumption := by
    refine resumes_iff.mpr fun w w' h room => ?_
    rw [stream_apply] at h
    split at h
    case isTrue => cases h
    case isFalse hchanged =>
      split at h
      case isTrue => cases h
      case isFalse hfits =>
        cases h
        have hlt := Nat.lt_of_not_le hfits
        have hle := Nat.le_of_not_lt hchanged
        have hchanged' : ¬ bs.length < w.offset + w.cursor.remaining := by
          rw [List.length_drop] at hlt
          omega
        have hcond : ((bs.drop w.offset).drop w.cursor.remaining).length ≤ room ↔
            (bs.drop w.offset).length ≤ (w.extend [] room).cursor.remaining := by
          rw [Writer.extend_cursor, WriteCursor.remaining_extend, List.length_drop]
          omega
        rw [stream_apply, stream_apply, offset_extend, if_neg hchanged,
          offset_streamed hlt, if_neg hchanged', remaining_streamed hlt, ← List.drop_drop,
          reach_streamed hlt, chunkDone_streamed hlt, streamed_streamed hlt]
        simp only [hcond]

/-- Whether the length of the byte string in flight, or the node of the grid id, is written. -/
def headDone (w : Writer) : Bool := w.stack.current.progress.headDone

/-- Writes a length. -/
def putLength (n : Nat) : Write Unit := do put (← lift (Layout.length n))

theorem resumable_putLength (n : Nat) : Resumable Writer.stack (putLength n) := by
  rw [putLength]
  cases Layout.length n with
  | ok bs => exact resumable_put bs
  | error e => exact .of_settled (.fail e)

/-- Notes that what comes before the rest of an item is written. -/
def markHead : Write Unit := modifyProgress fun p => { p with headDone := true }

theorem settled_markHead : Settled Writer.outer markHead := settled_modifyProgress fun _ => rfl

theorem headDone_of_markHead {p : Write Unit} (h : (do p; markHead) w = .ok () w') :
    headDone w' = true := by
  obtain ⟨u, w₁, -, hmark⟩ := ok_of_bind h
  cases hmark
  rfl

theorem headDone_of_suspended {p : Write Unit} (hp : Resumable Writer.stack p)
    (h : (do p; markHead) w = .error .suspended w') : headDone w' = headDone w := by
  have h := suspended_of_bind (fun _ => settled_markHead.settles) h
  rw [headDone, hp.frame.error h]
  rfl

theorem headDone_of_stream (h : stream bs w = .error .suspended w') : headDone w' = headDone w := by
  rw [stream_apply] at h
  split at h
  · cases h
  · split at h
    · cases h
    · cases h
      rfl

theorem putChunk_eq (bs : Bytes) : putChunk bs = (do
    once headDone (do putLength bs.length; markHead)
    stream bs) := by
  funext w
  rw [putChunk, progress_bind, bind_apply]
  cases h : headDone w with
  | true =>
    rw [once_of_seen h]
    rw [headDone] at h
    rw [h]
    rfl
  | false =>
    rw [once_of_not_seen h, ← bind_apply, bind_assoc, putLength, bind_assoc]
    rw [headDone] at h
    rw [h]
    rfl

theorem resumable_putChunk (bs : Bytes) : Resumable Writer.outer (putChunk bs) := by
  have hlength := resumable_putLength bs.length
  rw [putChunk_eq]
  exact .once_bind (fun _ _ _ => rfl)
    ((outer_of_stack hlength).bind_settled fun _ => settled_markHead)
    (headDone_of_suspended hlength) headDone_of_markHead (resumable_stream bs) headDone_of_stream

theorem resumable_putNull : Resumable Writer.stack putNull := resumable_put _

theorem resumable_putBytes (bs : Option Bytes) : Resumable Writer.outer (putBytes bs) := by
  cases bs with
  | none => exact outer_of_stack resumable_putNull
  | some bs => exact resumable_putChunk bs

theorem resumable_putChar (c : Char) : Resumable Writer.stack (putChar c) := by
  rw [putChar]
  cases Encode.char c with
  | ok bs => exact resumable_put bs
  | error e => exact .of_settled (.fail e)

/-! ## Grid ids -/

/-- Writes the counter of a grid id. -/
def putCounter (g : GridId) : Write Unit := do
  put (Encode.int64 g.counter.toBitVec)
  modifyProgress fun p => { p with headDone := false }

theorem settled_unmarkHead : Settled Writer.outer
    (modifyProgress fun p => { p with headDone := false }) :=
  settled_modifyProgress fun _ => rfl

theorem headDone_of_putCounter {g : GridId} (h : putCounter g w = .error .suspended w') :
    headDone w' = headDone w := by
  have h := suspended_of_bind (fun _ => settled_unmarkHead.settles) h
  rw [headDone, (resumable_put _).frame.error h]
  rfl

theorem putGrid_eq (g : GridId) : putGrid (some g) = (do
    once headDone (do put (Layout.nullableUuid (some g.node)); markHead)
    putCounter g) := by
  funext w
  rw [putGrid, progress_bind, bind_apply]
  cases h : headDone w with
  | true =>
    rw [once_of_seen h]
    rw [headDone] at h
    rw [h]
    rfl
  | false =>
    rw [once_of_not_seen h, ← bind_apply, bind_assoc]
    rw [headDone] at h
    rw [h]
    rfl

theorem putGrid_none_apply (w : Writer) :
    putGrid none w = if headDone w then fail .fieldChanged w
      else put (Layout.nullableUuid none) w := by
  rw [putGrid, progress_bind]
  cases h : headDone w with
  | true =>
    rw [headDone] at h
    rw [h]
    rfl
  | false =>
    rw [headDone] at h
    rw [h]
    exact congrFun (bind_pure (put (Layout.nullableUuid none))) w

theorem resumable_putGrid_none : Resumable Writer.stack (putGrid none) where
  extension := by
    intro w _
    cases h : headDone w with
    | true =>
      refine extendsAt_of_failed .fieldChanged w fun before room => ?_
      rw [putGrid_none_apply, show headDone (w.extend before room) = true from h]
      rfl
    | false =>
      refine (resumable_put (Layout.nullableUuid none)).extension.redirect trivial id id
        fun before room => ?_
      rw [putGrid_none_apply, show headDone (Supplied.extend w before room) = false from h]
      rfl
  frame := by
    intro w
    rw [putGrid_none_apply]
    cases headDone w
    · exact (resumable_put _).frame w
    · rfl
  resumption := by
    refine .of_still fun w w' h => ?_
    rw [putGrid_none_apply] at h
    split at h
    · cases h
    · exact still_put _ w w' h

theorem resumable_putGrid (g : Option GridId) : Resumable Writer.outer (putGrid g) := by
  cases g with
  | none => exact outer_of_stack resumable_putGrid_none
  | some g =>
    rw [putGrid_eq]
    have hnode := resumable_put (Layout.nullableUuid (some g.node))
    exact .once_bind (fun _ _ _ => rfl)
      ((outer_of_stack hnode).bind_settled fun _ => settled_markHead)
      (headDone_of_suspended hnode) headDone_of_markHead
      ((outer_of_stack (resumable_put _)).bind_settled fun _ => settled_unmarkHead)
      headDone_of_putCounter

/-! ## Values -/

/-- The bytes of the value in flight, once it is encoded. -/
def staged (w : Writer) : Option Bytes := w.stack.current.progress.staged

/-- Encodes a value, and writes it as a byte string. -/
def stage (encoded : Except Error Bytes) : Write Unit := do
  let bs ← lift encoded
  modifyProgress fun p => { p with staged := some bs }
  putChunk bs

theorem putStaged_apply (encoded : Except Error Bytes) (w : Writer) :
    putStaged encoded w = match staged w with
      | some bs => putChunk bs w
      | none => stage encoded w := by
  rw [putStaged, progress_bind, staged]
  cases w.stack.current.progress.staged with
  | some bs => rfl
  | none => simp only [stage, pure_bind]

theorem staged_of_stream (h : stream bs w = .error .suspended w') : staged w' = staged w := by
  rw [stream_apply] at h
  split at h
  · cases h
  · split at h
    · cases h
    · cases h
      rfl

theorem keeps_staged_head (n : Nat) : Keeps staged (do putLength n; markHead) :=
  ((resumable_putLength n).frame.comp fun s => s.current.progress.staged).bind fun _ _ => rfl

theorem staged_of_putChunk (h : putChunk bs w = .error .suspended w') : staged w' = staged w := by
  rw [putChunk_eq, bind_apply] at h
  cases hd : headDone w with
  | true =>
    rw [once_of_seen hd] at h
    exact staged_of_stream h
  | false =>
    rw [once_of_not_seen hd] at h
    cases hhead : (do putLength bs.length; markHead : Write Unit) w with
    | error e w₁ =>
      rw [hhead] at h
      cases h
      exact (keeps_staged_head bs.length).error hhead
    | ok u w₁ =>
      rw [hhead] at h
      exact (staged_of_stream h).trans ((keeps_staged_head bs.length).ok hhead)

/-- The writer once a value is encoded. -/
def stagedWriter (w : Writer) (bs : Bytes) : Writer :=
  { w with stack := w.stack.modify fun f =>
    { f with progress := { f.progress with staged := some bs } } }

/-- A value that is encoded is written on, however its encoding would come out now. -/
theorem resumable_putStaged (encoded : Except Error Bytes) :
    Resumable Writer.outer (putStaged encoded) where
  extension := by
    intro w _
    cases hs : staged w with
    | some bs =>
      refine (resumable_putChunk bs).extension.redirect trivial id id fun before room => ?_
      rw [putStaged_apply, show staged (Supplied.extend w before room) = some bs from hs]
    | none =>
      have hrun (before : Bytes) (room : Nat) :
          putStaged encoded (w.extend before room) = stage encoded (w.extend before room) := by
        rw [putStaged_apply, show staged (w.extend before room) = none from hs]
      cases encoded with
      | error e => exact extendsAt_of_failed e w hrun
      | ok bs =>
        have hs₁ : Supplied.Sound (stagedWriter w bs) := trivial
        exact (resumable_putChunk bs).extension.redirect hs₁ id id hrun
  frame := by
    intro w
    rw [putStaged_apply]
    cases hs : staged w with
    | some bs => exact (resumable_putChunk bs).frame w
    | none =>
      cases encoded with
      | error e => rfl
      | ok bs => exact (resumable_putChunk bs).frame (stagedWriter w bs)
  resumption := by
    refine resumes_iff.mpr fun w w' h room => ?_
    have hgo {bs : Bytes} {w₁ : Writer} (hs : staged w₁ = some bs) :
        putStaged encoded (w₁.extend [] room) = putChunk bs (w₁.extend [] room) := by
      rw [putStaged_apply, show staged (w₁.extend [] room) = some bs from hs]
    rw [putStaged_apply] at h
    cases hs : staged w with
    | some bs =>
      rw [hs] at h
      rw [hgo hs, hgo ((staged_of_putChunk h).trans hs)]
      exact resume_extend (resumable_putChunk bs).resumption h room
    | none =>
      rw [hs] at h
      cases encoded with
      | error e => cases h
      | ok bs =>
        have h : putChunk bs (stagedWriter w bs) = .error .suspended w' := h
        have hstart : putStaged (.ok bs) (w.extend [] room) =
            putChunk bs ((stagedWriter w bs).extend [] room) := by
          rw [putStaged_apply, show staged (w.extend [] room) = none from hs]
          rfl
        rw [hstart, hgo (staged_of_putChunk h)]
        exact resume_extend (resumable_putChunk bs).resumption h room

end Write

end WireCodec
