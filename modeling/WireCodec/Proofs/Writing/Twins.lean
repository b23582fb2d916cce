import Mathlib.Data.ENat.Basic
import WireCodec.Proofs.Twins
import WireCodec.Proofs.Writing.Chunks

/-!
# Writers that cannot be told apart

Writing does the same whatever is pooled below the frames in use (`respects_putMessage`), whether
or not the message is the one that was being written. It leaves each level where it found it, and
counts no more fields on a level than a message has, or than were counted before. A counter of one
byte is therefore wide enough for messages of up to 255 fields.
-/

namespace WireCodec

/-- A message is another one, or is nested in it at any depth. -/
inductive Message.Inside : Message → Message → Prop
  | refl (msg : Message) : Inside msg msg
  | nested {inner outer msg : Message} {f : Field} (hf : f ∈ msg.sent)
    (houter : outer ∈ f.messages) (h : Inside inner outer) : Inside inner msg

/-- A message that has up to so many fields which are written, as has every message in it. -/
def Message.Narrow (limit : ℕ∞) (msg : Message) : Prop :=
  ∀ inner : Message, inner.Inside msg → inner.sent.length ≤ limit

theorem Message.narrow_top (msg : Message) : msg.Narrow ⊤ := fun _ _ => le_top

theorem Message.Narrow.mk {limit : ℕ∞} {msg : Message} (h : msg.sent.length ≤ limit)
    (hnested : ∀ f ∈ msg.sent, ∀ inner ∈ f.messages, inner.Narrow limit) : msg.Narrow limit := by
  intro inner hinner
  cases hinner with
  | refl => exact h
  | nested hf houter hinner => exact hnested _ hf _ houter inner hinner

theorem Message.Narrow.nested {limit : ℕ∞} {msg inner : Message} (h : msg.Narrow limit) {f : Field}
    (hf : f ∈ msg.sent) (hinner : inner ∈ f.messages) : inner.Narrow limit :=
  fun m hm => h m (.nested hf hinner hm)

/-- A frame in which up to so many fields are counted. -/
def WriteFrame.Within (limit : ℕ∞) (f : WriteFrame) : Prop := f.completed ≤ limit

theorem WriteFrame.within_default (limit : ℕ∞) : (default : WriteFrame).Within limit :=
  bot_le (a := limit)

namespace Write

open Step

/-- Writers at the same place of the same buffer, with frames that are twins. -/
structure Twins (limit : ℕ∞) (above : List WriteFrame) (w w' : Writer) : Prop where
  stack : w.stack.Twins (WriteFrame.Within limit) above w'.stack
  cursor : w.cursor = w'.cursor

/-- Twins with so many fields counted. -/
def TwinsAt (limit : ℕ∞) (above : List WriteFrame) (n : Nat) (w w' : Writer) : Prop :=
  Twins limit above w w' ∧ w.stack.current.completed = n

variable {α : Type} {limit : ℕ∞} {above : List WriteFrame} {n : Nat} {w w' : Writer}

/-! ## Fields -/

theorem Twins.modify {g : WriteFrame → WriteFrame} (h : Twins limit above w w')
    (hg : (g w.stack.current).completed ≤ limit) :
    Twins limit above { w with stack := w.stack.modify g }
      { w' with stack := w'.stack.modify g } :=
  ⟨h.stack.modify fun _ => hg, h.cursor⟩

theorem Twins.wrote (h : Twins limit above w w') (bs : Bytes) :
    Twins limit above (w.wrote bs) (w'.wrote bs) :=
  ⟨h.stack, congrArg (·.putPartial bs) h.cursor⟩

theorem respects_put (bs : Bytes) : Respects (TwinsAt limit above n) (put bs) := by
  intro w w' h
  rw [put_apply, put_apply, h.1.cursor]
  split
  · exact .ok () ⟨h.1.wrote bs, h.2⟩
  · exact .error .suspended h

theorem respects_stream (bs : Bytes) : Respects (TwinsAt limit above n) (stream bs) := by
  intro w w' h
  have hoffset : w.offset = w'.offset :=
    congrArg (fun f : WriteFrame => f.progress.offset) h.1.stack.current
  rw [stream_apply, stream_apply, Writer.reach, Writer.reach, hoffset, h.1.cursor]
  split
  · exact .error _ h
  · split
    · exact .ok () ⟨(h.1.wrote _).modify h.1.stack.all.current, h.2⟩
    · exact .error _ ⟨(h.1.wrote _).modify h.1.stack.all.current, h.2⟩

/-- A field is written alike by twins, and is not counted yet. -/
theorem compositional_respects : Compositional (Respects (TwinsAt limit above n)) where
  pure := .pure
  fail e := .throw (.failed e)
  bind := .bind
  progress hq w w' h := by
    rw [progress_bind, progress_bind, h.1.stack.current]
    exact hq _ w w' h
  modifyProgress _ _ _ h := .ok () ⟨h.1.modify h.1.stack.all.current, h.2⟩
  put _ := respects_put _
  stream := respects_stream
  probe w w' h := by
    have hdepth : w.stack.depth = w'.stack.depth := congrArg List.length h.1.stack.above
    have hread := respects_put (Layout.probe w'.stack.depth w'.cursor.remaining) w w' h
    rwa [get_bind, get_bind, hdepth, h.1.cursor]

section

variable {nested : Message → Write Unit}

/-! ## Messages -/

/-- The fields from some place on are counted one by one, up to the last one at most. -/
theorem alike_forEach_fieldStep (m : Marshaller) {fs : List Field}
    (h : ∀ n, ∀ f ∈ fs, ∀ msg ∈ f.messages, Respects (TwinsAt limit above n) (nested msg))
    (hn : (n + fs.length : Nat) ≤ limit) (hw : TwinsAt limit above n w w') :
    Alike (Twins limit above) (forEach (fieldStep nested m) fs w)
      (forEach (fieldStep nested m) fs w') := by
  induction fs generalizing n w w' with
  | nil => exact .ok () hw.1
  | cons f fs ih =>
    have hcount : n + 1 + fs.length = n + (f :: fs).length := by
      rw [List.length_cons]
      omega
    have hnext : ((n + 1 : Nat) : ℕ∞) ≤ limit :=
      le_trans (Nat.cast_le.mpr (hcount ▸ Nat.le_add_right (n + 1) fs.length)) hn
    have hsteps (w : Writer) : forEach (fieldStep nested m) (f :: fs) w = (do
        putField nested m f
        modifyFrame fun frame =>
          { frame with completed := frame.completed + 1, progress := default }
        forEach (fieldStep nested m) fs) w := by
      rw [forEach, fieldStep, bind_assoc]
    rw [hsteps, hsteps]
    have hfield := compositional_respects.putField m (h n f List.mem_cons_self) fun _ => .throw _
    refine (hfield w w' hw).bind ?_ fun _ _ hw => hw.1
    rintro - v v' ⟨hv, rfl⟩
    exact ih (fun k g hg => h k g (List.mem_cons_of_mem f hg)) (hcount ▸ hn)
      ⟨hv.modify hnext, rfl⟩

/-- A message is written alike by twins, which may be in the middle of another one. -/
theorem respects_putBody (m : Marshaller) {msg : Message} (hmsg : msg.sent.length ≤ limit)
    (h : ∀ n, ∀ f ∈ msg.sent, ∀ inner ∈ f.messages,
      Respects (TwinsAt limit above n) (nested inner)) :
    Respects (Twins limit above) (putBody nested m msg) := by
  have hheader : Respects (Twins limit above) (writeHeader msg.type) := by
    intro w w' hw
    refine (respects_put [msg.type] w w' ⟨hw, rfl⟩).bind ?_ fun _ _ hw => hw.1
    exact fun _ w w' hw => .ok () (hw.1.modify hw.1.stack.all.current)
  have hwritten {w w' : Writer} (hw : Twins limit above w w') :
      headerWritten w = headerWritten w' := congrArg WriteFrame.headerWritten hw.stack.current
  have hcompleted {w w' : Writer} (hw : Twins limit above w w') : completed w = completed w' :=
    congrArg WriteFrame.completed hw.stack.current
  rw [putBody_eq]
  refine .bind (.once (fun _ _ => hwritten) hheader) fun _ w w' hw => ?_
  have hfrom (w : Writer) : forEachFrom completed (fieldStep nested m) msg.sent w =
      forEach (fieldStep nested m) (msg.sent.drop (completed w)) w := rfl
  rw [hfrom, hfrom, ← hcompleted hw]
  refine alike_forEach_fieldStep m (fun k f hf => h k f (List.mem_of_mem_drop hf)) ?_ ⟨hw, rfl⟩
  have hbound : ((completed w : Nat) : ℕ∞) ≤ limit := hw.stack.all.current
  rw [List.length_drop]
  rcases Nat.le_total (completed w) msg.sent.length with hle | hle
  · exact (Nat.add_sub_cancel' hle).symm ▸ hmsg
  · exact (Nat.sub_eq_zero_of_le hle).symm ▸ hbound

end

/-- A message one level down leaves the level above it alone. -/
theorem respects_descend {p : Write Unit} (h : ∀ f, Respects (Twins limit (f :: above)) p) :
    Respects (TwinsAt limit above n) (descend p) := by
  rintro w w' ⟨hw, rfl⟩
  have hdown : Twins limit (w.stack.current :: above) w.down w'.down :=
    ⟨hw.stack.descend (WriteFrame.within_default limit), hw.cursor⟩
  have hup {v v' : Writer} (hv : Twins limit (w.stack.current :: above) v v') (finished : Bool) :
      TwinsAt limit above w.stack.current.completed (v.up finished) (v'.up finished) := by
    obtain ⟨hstack, hcurrent⟩ := hv.stack.ascend (WriteFrame.within_default limit) finished
    exact ⟨⟨hstack, hv.cursor⟩, congrArg WriteFrame.completed hcurrent⟩
  have hrun := h w.stack.current w.down w'.down hdown
  rw [descend_apply, descend_apply]
  generalize p w.down = x at hrun
  generalize p w'.down = y at hrun
  cases hrun with
  | ok u hv => exact .ok () (hup hv true)
  | error stop hv => exact .error stop (hup hv false)

theorem respects_putMessage (m : Marshaller) (levels : Nat) {msg : Message}
    (h : msg.Narrow limit) : Respects (Twins limit above) (putMessage m levels msg) := by
  induction levels generalizing msg above with
  | zero => exact respects_putBody m (h msg (.refl msg)) fun _ _ _ _ _ => .throw _
  | succ levels ih =>
    refine respects_putBody m (h msg (.refl msg)) fun _ f hf inner hinner => ?_
    exact respects_descend fun _ => ih (h.nested hf hinner)

end Write

end WireCodec
