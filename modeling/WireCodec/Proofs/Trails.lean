import Mathlib.Data.List.Basic
import WireCodec.Proofs.Failing
import WireCodec.Proofs.Resumption

/-!
# Frames in use and frames at rest

A stack of frames is a pool with an index: a list of the frames of all levels, the first one first,
and the level that is current. Going down and up and clearing the stack is going through the list
(`FrameStack.pool`), and the index never leaves it.

Where a message stopped, a `Trail` leads from its frame downwards: each level holds a message that
is half done and tells which message nested in it comes next, and below the last of them all frames
are cleared. A step ends with a result, by stopping, or with an error; `Ends` says what holds of the
states in the first two cases, and that the error is not one of progress that belongs elsewhere.
-/

namespace WireCodec

/-! ## Pools -/

/-- The frames of all levels, the first one first, and the level that is current. -/
structure FramePool (φ : Type) where
  frames : List φ
  depth : Nat

namespace FramePool

variable {φ : Type} [Inhabited φ]

/-- Goes down one level. A cleared frame is added where the pool has none for it. -/
def forward (p : FramePool φ) : FramePool φ where
  frames := if p.frames.length ≤ p.depth + 1 then p.frames ++ [default] else p.frames
  depth := p.depth + 1

/-- Goes up one level, and clears the frame left behind if its message is `finished`. -/
def backward (p : FramePool φ) (finished : Bool) : FramePool φ where
  frames := if finished then p.frames.set p.depth default else p.frames
  depth := p.depth - 1

/-- Changes the frame of the current level. -/
def modify (p : FramePool φ) (g : φ → φ) : FramePool φ :=
  { p with frames := p.frames.modify p.depth g }

/-- Clears every frame and goes up to the first level. -/
def reset (p : FramePool φ) : FramePool φ := ⟨p.frames.map fun _ => default, 0⟩

end FramePool

namespace FrameStack

variable {φ : Type} {s t : FrameStack φ}

/-- The stack as a pool with an index. -/
def pool (s : FrameStack φ) : FramePool φ :=
  ⟨s.above.reverse ++ s.current :: s.below, s.above.length⟩

theorem length_frames_pool (s : FrameStack φ) : s.pool.frames.length = s.pooled := by
  rw [pool, List.length_append, List.length_reverse, List.length_cons, pooled]
  omega

/-- The current level has a frame of the pool. -/
theorem depth_lt_length (s : FrameStack φ) : s.pool.depth < s.pool.frames.length := by
  rw [length_frames_pool, pooled]
  exact Nat.lt_of_lt_of_le (Nat.lt_succ_self s.above.length) (Nat.le_add_right _ _)

theorem getElem?_depth (s : FrameStack φ) : s.pool.frames[s.pool.depth]? = some s.current := by
  rw [pool, List.getElem?_append_right (Nat.le_of_eq s.above.length_reverse), List.length_reverse,
    Nat.sub_self, List.getElem?_cons_zero]

theorem set_depth (s : FrameStack φ) (f : φ) :
    s.pool.frames.set s.pool.depth f = s.above.reverse ++ f :: s.below := by
  rw [pool, List.set_append_right _ _ (Nat.le_of_eq s.above.length_reverse), List.length_reverse,
    Nat.sub_self, List.set_cons_zero]

theorem pool_modify (s : FrameStack φ) (g : φ → φ) : (s.modify g).pool = s.pool.modify g := by
  rw [FramePool.modify, List.modify_eq_set_getElem?, getElem?_depth]
  exact congrArg (FramePool.mk · _) (s.set_depth (g s.current)).symm

variable [Inhabited φ]

theorem pool_descend (s : FrameStack φ) : s.descend.pool = s.pool.forward := by
  obtain ⟨above, current, below⟩ := s
  have hlength : (above.reverse ++ current :: below).length = above.length + 1 + below.length :=
    length_frames_pool ⟨above, current, below⟩
  cases below with
  | nil =>
    have hlast : (above.reverse ++ [current]).length ≤ above.length + 1 := Nat.le_of_eq hlength
    dsimp only [descend, pool, FramePool.forward]
    rw [if_pos hlast, List.reverse_cons, List.length_cons]
  | cons f below =>
    have hmore : ¬ (above.reverse ++ current :: f :: below).length ≤ above.length + 1 := by
      rw [hlength, List.length_cons]
      omega
    dsimp only [descend, pool, FramePool.forward]
    rw [if_neg hmore, List.reverse_cons, List.length_cons, List.append_assoc,
      List.singleton_append]

theorem pool_ascend (s : FrameStack φ) (finished : Bool) :
    (s.ascend finished).pool = s.pool.backward finished := by
  have hleft : (if finished then s.pool.frames.set s.pool.depth default else s.pool.frames) =
      s.above.reverse ++ (if finished then default else s.current) :: s.below := by
    cases finished with
    | false => rfl
    | true => exact s.set_depth default
  rw [FramePool.backward, hleft]
  obtain ⟨_ | ⟨f, above⟩, current, below⟩ := s
  · rfl
  · simp only [ascend, pool, List.reverse_cons, List.append_assoc, List.singleton_append,
      List.length_cons, Nat.add_sub_cancel]

theorem pool_reset (s : FrameStack φ) : s.reset.pool = s.pool.reset := by
  rw [FramePool.reset, List.map_const', length_frames_pool, reset, pool, pooled]
  simp only [List.reverse_nil, List.nil_append, List.length_nil, ← List.replicate_succ]
  congr 2
  omega

end FrameStack

/-! ## Trails -/

section

variable {κ φ : Type} [Inhabited φ]

/-- From some level on, the frames are those of a message in flight and of the ones nested in it:
each level `Holds` a message and tells which one is in flight on the next level, if one is. Where
none is, this frame and all that follow are cleared. -/
inductive Trail (Holds : κ → φ → Option κ → Prop) : Option κ → List φ → Prop
  | cleared {next : Option κ} {frames : List φ} (h : ∀ f ∈ frames, f = default) :
    Trail Holds next frames
  | level {k : κ} {f : φ} {next : Option κ} {frames : List φ} (h : Holds k f next)
    (hnext : Trail Holds next frames) : Trail Holds (some k) (f :: frames)

namespace Trail

variable {Holds : κ → φ → Option κ → Prop} {k : κ} {next : Option κ} {frames : List φ}
  {s t : FrameStack φ}

theorem none_iff : Trail Holds none frames ↔ ∀ f ∈ frames, f = default := by
  constructor
  · intro h
    cases h with
    | cleared h => exact h
  · exact cleared

/-- Going down leads to the frame where the next message is in flight. -/
theorem descend (h : Trail Holds (some k) s.below) :
    Trail Holds (some k) (s.descend.current :: s.descend.below) := by
  obtain ⟨above, current, below⟩ := s
  cases below with
  | nil => exact .cleared (List.forall_mem_singleton.mpr rfl)
  | cons f below => exact h

/-- Going up from a message that is half done leaves its trail behind. -/
theorem ascend (habove : t.above = s.descend.above)
    (h : Trail Holds next (t.current :: t.below)) : Trail Holds next (t.ascend false).below := by
  obtain ⟨above, current, below⟩ := t
  rw [FrameStack.above_descend] at habove
  cases habove
  exact h

theorem of_cleared (h : s.Cleared) : Trail Holds next s.below := .cleared h

end Trail

end

/-! ## How steps end -/

open Step

section

variable {σ α β : Type} {Q Q' : α → σ → Prop} {R : β → σ → Prop} {S S' : σ → Prop}

/-- A step ends in a state of which `Q` holds with its result, or stops in one of which `S` holds,
or fails, but not for progress that belongs elsewhere. -/
def Ends (Q : α → σ → Prop) (S : σ → Prop) : EStateM.Result (Stop Error) σ α → Prop
  | .ok x s => Q x s
  | .error .suspended s => S s
  | .error (.failed e) _ => e.Foreign

namespace Ends

variable {x : EStateM.Result (Stop Error) σ α} {p : Step σ α} {s : σ}

theorem mono (h : Ends Q S x) (hQ : ∀ a s, Q a s → Q' a s) (hS : ∀ s, S s → S' s) :
    Ends Q' S' x := by
  rcases x with ⟨a, s⟩ | ⟨_ | e, s⟩
  · exact hQ a s h
  · exact hS s h
  · exact h

theorem bind {q : α → Step σ β} (hp : Ends Q S (p s)) (hq : ∀ a s', Q a s' → Ends R S' (q a s'))
    (hS : ∀ s', S s' → S' s') : Ends R S' ((p >>= q) s) := by
  rw [bind_apply]
  rcases hrun : p s with ⟨a, s'⟩ | ⟨_ | e, s'⟩ <;> rw [hrun] at hp
  · exact hq a s' hp
  · exact hS s' hp
  · exact hp

theorem map (g : α → β) (hp : Ends Q S (p s)) (hR : ∀ a s', Q a s' → R (g a) s') :
    Ends R S ((g <$> p) s) := by
  rw [map_eq_pure_bind]
  exact hp.bind hR fun _ h => h

end Ends

end

end WireCodec
