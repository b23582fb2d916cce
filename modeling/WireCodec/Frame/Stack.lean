/-!
A stack of frames, one for each level of nested messages. Frames are pooled: going up leaves the
frame of the lower level in place, and going down again takes it up as it is. A frame left behind
by a finished message is cleared; one left behind by a suspended message keeps its progress.
-/

namespace WireCodec

/-- Frames by level: those above the current level, the nearest first; the current one; and the
pooled ones below it, the nearest first. -/
structure FrameStack (φ : Type) where
  above : List φ
  current : φ
  below : List φ
  deriving DecidableEq

namespace FrameStack

variable {φ : Type} [Inhabited φ]

/-- The stack with one cleared frame. -/
def empty : FrameStack φ := ⟨[], default, []⟩

instance : Inhabited (FrameStack φ) := ⟨empty⟩

/-- The number of levels above the current one. -/
def depth (s : FrameStack φ) : Nat := s.above.length

/-- The number of frames in the pool. -/
def pooled (s : FrameStack φ) : Nat := s.above.length + 1 + s.below.length

/-- The stack with the current frame changed. -/
def modify (s : FrameStack φ) (f : φ → φ) : FrameStack φ := { s with current := f s.current }

/-- Goes down one level, to the pooled frame there or to a new one. -/
def descend (s : FrameStack φ) : FrameStack φ :=
  match s.below with
  | [] => ⟨s.current :: s.above, default, []⟩
  | f :: below => ⟨s.current :: s.above, f, below⟩

/-- Goes up one level. The frame left behind is cleared if its message is `finished`. -/
def ascend (s : FrameStack φ) (finished : Bool) : FrameStack φ :=
  let left := if finished then default else s.current
  match s.above with
  | [] => ⟨[], left, s.below⟩
  | f :: above => ⟨above, f, left :: s.below⟩

/-- Clears every frame and goes up to the first level. -/
def reset (s : FrameStack φ) : FrameStack φ :=
  ⟨[], default, List.replicate (s.pooled - 1) default⟩

end FrameStack

/-- Why a step of writing or reading a message ends early. -/
inductive Stop (ε : Type) where
  /-- for want of room or of bytes; it can be taken up again -/
  | suspended
  | failed (e : ε)
  deriving DecidableEq

end WireCodec
