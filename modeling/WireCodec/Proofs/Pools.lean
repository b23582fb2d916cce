import WireCodec.Proofs.Reading.Composition
import WireCodec.Proofs.Trails
import WireCodec.Proofs.Writing.Composition

/-!
# How many frames are pooled

A frame is added to the pool only by going down, and going down is refused where messages would
nest too deep. So however a message ends that is on a level from which so many more levels are
allowed, the pool has no more frames than there are levels (`Write.sized_putMessage`,
`Read.sized_root`), or than it had before.
-/

namespace WireCodec

open Step

section

variable {σ α β : Type} {I : σ → Prop} {p : Step σ α}

/-- The state that a step leads to, however it ends. -/
def Step.left : EStateM.Result (Stop Error) σ α → σ
  | .ok _ s => s
  | .error _ s => s

/-- However a step ends, what held of the state holds of it again. -/
def Preserves (I : σ → Prop) (p : Step σ α) : Prop := ∀ s, I s → I (Step.left (p s))

namespace Preserves

theorem pure (x : α) : Preserves I (Pure.pure x : Step σ α) := fun _ h => h

theorem throw (e : Stop Error) : Preserves I (MonadExcept.throw e : Step σ α) := fun _ h => h

theorem bind {q : α → Step σ β} (hp : Preserves I p) (hq : ∀ x, Preserves I (q x)) :
    Preserves I (p >>= q) := by
  intro s hs
  have hs := hp s hs
  rw [bind_apply]
  generalize p s = x at hs ⊢
  cases x with
  | ok x s' => exact hq x s' hs
  | error e s' => exact hs

theorem once {seen : σ → Bool} {step : Step σ Unit} (h : Preserves I step) :
    Preserves I (WireCodec.once seen step) := by
  intro s hs
  cases hseen : seen s with
  | true => rw [once_of_seen hseen]; exact hs
  | false => rw [once_of_not_seen hseen]; exact h s hs

theorem forEach {step : β → Step σ Unit} (h : ∀ x, Preserves I (step x)) (xs : List β) :
    Preserves I (WireCodec.forEach step xs) := by
  induction xs with
  | nil => exact .pure ()
  | cons x xs ih => exact (h x).bind fun _ => ih

theorem forEachFrom {count : σ → Nat} {step : β → Step σ Unit} (h : ∀ x, Preserves I (step x))
    (xs : List β) : Preserves I (WireCodec.forEachFrom count step xs) :=
  fun s hs => Preserves.forEach h (xs.drop (count s)) s hs

end Preserves

end

/-! ## Pools -/

namespace FrameStack

variable {φ : Type} {s : FrameStack φ} {depth bound : Nat}

/-- A stack on a level, with no more than so many frames in its pool. -/
def Sized (depth bound : Nat) (s : FrameStack φ) : Prop := s.depth = depth ∧ s.pooled ≤ bound

variable [Inhabited φ]

/-- Going down adds a frame to the pool only where there is none for the level. -/
theorem Sized.descend (h : s.Sized depth bound) (hdepth : depth + 2 ≤ bound) :
    s.descend.Sized (depth + 1) bound := by
  obtain ⟨above, current, below⟩ := s
  obtain ⟨rfl, hpooled⟩ := h
  change above.length + 2 ≤ bound at hdepth
  change above.length + 1 + below.length ≤ bound at hpooled
  cases below with
  | nil => exact ⟨rfl, hdepth⟩
  | cons f below =>
    refine ⟨rfl, ?_⟩
    change above.length + 1 + 1 + below.length ≤ bound
    rw [List.length_cons] at hpooled
    omega

theorem Sized.ascend (h : s.Sized (depth + 1) bound) (finished : Bool) :
    (s.ascend finished).Sized depth bound := by
  obtain ⟨_ | ⟨f, above⟩, current, below⟩ := s
  · exact absurd h.1 (Nat.succ_ne_zero depth).symm
  · obtain ⟨hlevel, hpooled⟩ := h
    change above.length + 1 + 1 + below.length ≤ bound at hpooled
    refine ⟨Nat.succ.inj hlevel, ?_⟩
    change above.length + 1 + (below.length + 1) ≤ bound
    omega

theorem pooled_reset (s : FrameStack φ) : s.reset.pooled = s.pooled := by
  rw [reset, pooled, List.length_replicate, pooled]
  dsimp only [List.length_nil]
  omega

end FrameStack

/-! ## Writing -/

namespace Write

variable {depth bound : Nat} {nested : Message → Write Unit}

/-- A writer on a level, with no more than so many frames in its pool. -/
def Sized (depth bound : Nat) (w : Writer) : Prop := w.stack.Sized depth bound

theorem compositional_sized : Compositional (Preserves (Sized depth bound)) where
  pure := .pure
  fail e := .throw (.failed e)
  bind := .bind
  progress hq w hw := hq _ w hw
  modifyProgress _ _ hw := hw
  put _ w hw := by
    rw [put_apply]
    split <;> exact hw
  stream bs w hw := by
    rw [stream_apply]
    split
    · exact hw
    · split <;> exact hw
  probe w hw := by
    rw [get_bind, put_apply]
    split <;> exact hw

theorem sized_putBody (m : Marshaller) (hn : ∀ inner, Preserves (Sized depth bound) (nested inner))
    (msg : Message) : Preserves (Sized depth bound) (putBody nested m msg) := by
  rw [putBody_eq]
  refine .bind (.once ?_) fun _ => .forEachFrom (fun f => ?_) _
  · have htype : [msg.type].length ≤ maxAtomicUnit := by
      rw [List.length_singleton]
      decide
    exact (compositional_sized.put htype).bind fun _ _ hw => hw
  · refine (compositional_sized.putField m (fun inner _ => hn inner) fun _ => ?_).bind
      fun _ _ hw => hw
    exact .throw .suspended

theorem sized_putMessage (m : Marshaller) {levels : Nat} (h : depth + 1 + levels ≤ bound)
    (msg : Message) : Preserves (Sized depth bound) (putMessage m levels msg) := by
  induction levels generalizing depth msg with
  | zero => exact sized_putBody m (fun _ => .throw _) msg
  | succ levels ih =>
    refine sized_putBody m (fun inner w hw => ?_) msg
    have hlevels : depth + 1 + 1 + levels ≤ bound := by omega
    have hrun := ih hlevels inner w.down (hw.descend (by omega))
    rw [descend_apply]
    generalize putMessage m levels inner w.down = x at hrun ⊢
    cases x with
    | ok u w' => exact FrameStack.Sized.ascend hrun true
    | error e w' => exact FrameStack.Sized.ascend hrun false

end Write

/-! ## Reading -/

namespace Read

variable {depth bound : Nat} {ctx : ReadContext} {nested : Schema → Read Message}

/-- A reader on a level, with no more than so many frames in its pool. -/
def Sized (depth bound : Nat) (r : Reader) : Prop := r.stack.Sized depth bound

theorem sized_advance {α : Type} (step : ReadCursor → Option (α × ReadCursor)) :
    Preserves (Sized depth bound) (advance step) := by
  intro r hr
  rw [advance_apply]
  split <;> exact hr

theorem sequential_sized : Sequential (Preserves (Sized depth bound)) where
  pure := .pure
  fail _ := .throw _
  bind := .bind
  take _ := sized_advance _

theorem sized_gather : Preserves (Sized depth bound) gather := by
  intro r hr
  rw [gather_apply]
  split <;> exact hr

theorem sized_bytes (limit : Nat) : Preserves (Sized depth bound) (bytes limit) := by
  intro r hr
  by_cases hhead : r.stack.current.progress.headDone = true
  · rw [bytes_of_headDone limit hhead]
    exact sized_gather r hr
  · rw [bytes_of_not_headDone limit hhead]
    refine (sequential_sized.length limit).bind (fun n => ?_) r hr
    cases n with
    | none => exact .pure none
    | some n => exact fun r hr => sized_gather (r.headed n) hr

theorem compositional_sized : Compositional (fun _ => True) (Preserves (Sized depth bound)) where
  toSequential := sequential_sized
  progress hq r hr := hq _ r hr
  modifyProgress _ _ hr := hr
  bytes := sized_bytes
  nullableUuid r hr := by
    rw [nullableUuid_apply]
    split
    · exact hr
    · split
      · exact hr
      · split
        · exact (sized_advance _).bind (fun _ => .pure _) r hr
        · exact hr
  takeParked hnone hnode hmessage r hr := by
    rw [takeParked_bind]
    rcases r.stack.current.progress.parked with _ | ⟨u⟩ | ⟨s⟩
    · exact hnone r.unpark hr
    · exact hnode u r.unpark hr
    · exact hmessage s trivial r.unpark hr
  counter u r hr := by
    rw [counter_apply]
    split <;> exact hr
  probe _ _ hr := hr

theorem sized_field (hn : ∀ s, Preserves (Sized depth bound) (nested s)) (kind : FieldKind) :
    Preserves (Sized depth bound) (field ctx nested kind) := by
  refine compositional_sized.field (fun _ _ => trivial) (fun s _ => hn s) (fun t f absent _ h => ?_)
    fun _ => .throw .suspended
  refine (sized_bytes _).bind fun bs => ?_
  cases bs with
  | none => exact h
  | some bs =>
    dsimp only
    cases ctx.marshaller.unmarshal t bs with
    | ok x => exact .pure (f x)
    | error e => exact .throw _

theorem sized_body (hn : ∀ s, Preserves (Sized depth bound) (nested s)) (s : Schema) :
    Preserves (Sized depth bound) (body ctx nested s) := by
  rw [body_eq]
  refine .bind (.forEachFrom (fun kind => ?_) _) fun _ _ hr => hr
  exact (sized_field hn kind).bind fun _ _ hr => hr

theorem sized_root (ctx : ReadContext) {levels : Nat} (h : depth + 1 + levels ≤ bound)
    (s : Schema) : Preserves (Sized depth bound) (root ctx levels s) := by
  induction levels generalizing depth s with
  | zero => exact sized_body (fun _ => .throw _) s
  | succ levels ih =>
    refine sized_body (fun inner r hr => ?_) s
    have hlevels : depth + 1 + 1 + levels ≤ bound := by omega
    have hrun := ih hlevels inner r.down (hr.descend (by omega))
    rw [descend_apply]
    generalize root ctx levels inner r.down = x at hrun ⊢
    rcases x with ⟨m, r'⟩ | ⟨_ | e, r'⟩
    · exact FrameStack.Sized.ascend hrun true
    · exact FrameStack.Sized.ascend hrun false
    · exact FrameStack.Sized.ascend hrun false

end Read

end WireCodec
