import Mathlib.Algebra.Ring.Nat
import WireCodec.Proofs.Reading.Steps

/-!
# States that cannot be told apart

Frames are pooled, so a session that was used has more of them than a new one. `FrameStack.Twins`
relates stacks that differ in that alone, and a step that `Respects` a relation does the same from
states that it relates. What is claimed of single states goes into the relation too: of twins, the
first is on the level that the relation names, and all of its frames have the property that it
names.
-/

namespace WireCodec

open Step

section

variable {σ α β : Type} {R S : σ → σ → Prop} {p : Step σ α} {s t : σ}

/-- Two runs end the same way and in related states. -/
inductive Alike (R : σ → σ → Prop) :
    EStateM.Result (Stop Error) σ α → EStateM.Result (Stop Error) σ α → Prop
  | ok (x : α) {s t : σ} (h : R s t) : Alike R (.ok x s) (.ok x t)
  | error (e : Stop Error) {s t : σ} (h : R s t) : Alike R (.error e s) (.error e t)

/-- From related states, a step ends the same way and in related states. -/
def Respects (R : σ → σ → Prop) (p : Step σ α) : Prop := ∀ s t, R s t → Alike R (p s) (p t)

theorem Alike.bind {q : α → Step σ β} (hp : Alike R (p s) (p t))
    (hq : ∀ x s t, R s t → Alike S (q x s) (q x t)) (hRS : ∀ s t, R s t → S s t) :
    Alike S ((p >>= q) s) ((p >>= q) t) := by
  rw [bind_apply, bind_apply]
  generalize p s = x at hp ⊢
  generalize p t = y at hp ⊢
  cases hp with
  | ok x h => exact hq x _ _ h
  | error e h => exact .error e (hRS _ _ h)

namespace Respects

theorem pure (x : α) : Respects R (Pure.pure x : Step σ α) := fun _ _ h => .ok x h

theorem throw (e : Stop Error) : Respects R (MonadExcept.throw e : Step σ α) :=
  fun _ _ h => .error e h

theorem bind {q : α → Step σ β} (hp : Respects R p) (hq : ∀ x, Respects R (q x)) :
    Respects R (p >>= q) :=
  fun s t h => (hp s t h).bind hq fun _ _ h => h

theorem once {seen : σ → Bool} {step : Step σ Unit} (hseen : ∀ s t, R s t → seen s = seen t)
    (h : Respects R step) : Respects R (WireCodec.once seen step) := by
  intro s t hst
  have heq := hseen s t hst
  cases ht : seen t with
  | true =>
    rw [once_of_seen (heq.trans ht), once_of_seen ht]
    exact .ok () hst
  | false =>
    rw [once_of_not_seen (heq.trans ht), once_of_not_seen ht]
    exact h s t hst

/-- What a step leaves alone in the first state may be taken into the relation. -/
theorem keeping {δ : Type} {f : σ → δ} (hp : Respects R p) (hk : Keeps f p) (d : δ) :
    Respects (fun s t => R s t ∧ f s = d) p := by
  rintro s t ⟨h, rfl⟩
  have hst := hp s t h
  have hkeep := hk s
  generalize p s = x at hst hkeep
  generalize p t = y at hst
  cases hst with
  | ok x h => exact .ok x ⟨h, hkeep⟩
  | error e h => exact .error e ⟨h, hkeep⟩

end Respects

end

/-! ## Stacks -/

namespace FrameStack

variable {φ : Type} [Inhabited φ] {P : φ → Prop} {above : List φ} {s t : FrameStack φ}

/-- Stacks on the same level with the same frames, but for cleared ones at the end of the pool. Of
the first one, the levels above are these, and all frames have a property. -/
structure Twins (P : φ → Prop) (above : List φ) (s t : FrameStack φ) : Prop where
  level : s.above = above
  above : s.above = t.above
  current : s.current = t.current
  below : ∀ i, s.below.getD i default = t.below.getD i default
  all : s.All P

theorem Cleared.getD (h : s.Cleared) (i : Nat) : s.below.getD i default = default := by
  rw [List.getD_eq_getElem?_getD]
  cases hi : s.below[i]? with
  | none => rfl
  | some f => exact h f (List.mem_of_getElem? hi)

/-- Stacks on the first level are twins if nothing is left in their frames. -/
theorem Cleared.twins (h₀ : P default) (hs : s.Cleared) (ht : t.Cleared) (hsa : s.above = [])
    (hta : t.above = []) (hsc : s.current = default) (htc : t.current = default) :
    s.Twins P [] t where
  level := hsa
  above := hsa.trans hta.symm
  current := hsc.trans htc.symm
  below i := (hs.getD i).trans (ht.getD i).symm
  all := ⟨hsa ▸ nofun, hsc ▸ h₀, fun f hf => hs f hf ▸ h₀⟩

theorem descend_eq (s : FrameStack φ) :
    s.descend = ⟨s.current :: s.above, s.below.getD 0 default, s.below.tail⟩ := by
  obtain ⟨above, current, _ | ⟨f, below⟩⟩ := s <;> rfl

namespace Twins

theorem modify {g : φ → φ} (h : s.Twins P above t) (hg : P s.current → P (g s.current)) :
    (s.modify g).Twins P above (t.modify g) :=
  ⟨h.level, h.above, congrArg g h.current, h.below, h.all.modify hg⟩

theorem descend (h₀ : P default) (h : s.Twins P above t) :
    s.descend.Twins P (s.current :: above) t.descend where
  level := by rw [above_descend, h.level]
  above := by rw [above_descend, above_descend, h.above, h.current]
  current := by rw [descend_eq, descend_eq, h.below 0]
  below i := by
    have hbelow := h.below (i + 1)
    rw [List.getD_eq_getElem?_getD, List.getD_eq_getElem?_getD] at hbelow ⊢
    rw [descend_eq, descend_eq, List.getElem?_tail, List.getElem?_tail, hbelow]
  all := h.all.descend h₀

/-- Going up leads to the frame that the level below was entered from. -/
theorem ascend {f : φ} (h₀ : P default) (h : s.Twins P (f :: above) t) (finished : Bool) :
    (s.ascend finished).Twins P above (t.ascend finished) ∧ (s.ascend finished).current = f := by
  obtain ⟨sabove, scurrent, sbelow⟩ := s
  obtain ⟨tabove, tcurrent, tbelow⟩ := t
  obtain ⟨rfl, rfl, rfl, hbelow, hall⟩ := h
  refine ⟨⟨rfl, rfl, rfl, fun i => ?_, hall.ascend h₀ finished⟩, rfl⟩
  cases i with
  | zero => rfl
  | succ i => exact hbelow i

theorem reset (h₀ : P default) (s t : FrameStack φ) : s.reset.Twins P [] t.reset :=
  (cleared_reset s).twins h₀ (cleared_reset t) rfl rfl rfl rfl

end Twins

end FrameStack

/-! ## Calls -/

section

variable {σ κ α : Type} (call : σ → κ → α × σ)

/-- The answers to calls that are made one after the other. -/
def answers : σ → List κ → List α
  | _, [] => []
  | s, c :: calls => (call s c).1 :: answers (call s c).2 calls

/-- The state that calls lead to. -/
def afterCalls (s : σ) (calls : List κ) : σ := calls.foldl (fun s c => (call s c).2) s

variable {call}

/-- Calls are answered alike from states that each call answers alike and leaves related. -/
theorem answers_eq {R : σ → σ → Prop} (hcall : ∀ s t c, R s t →
      (call s c).1 = (call t c).1 ∧ R (call s c).2 (call t c).2) (calls : List κ) {s t : σ}
    (h : R s t) : answers call s calls = answers call t calls := by
  induction calls generalizing s t with
  | nil => rfl
  | cons c calls ih =>
    obtain ⟨hanswer, hnext⟩ := hcall s t c h
    rw [answers, answers, hanswer, ih hnext]

/-- Calls are answered alike where one state stands for another, and lead to states of which one
stands for the other. -/
theorem answers_image {τ : Type} {call' : τ → κ → α × τ} {f : σ → τ}
    (hcall : ∀ s c, call' (f s) c = ((call s c).1, f (call s c).2)) (s : σ) (calls : List κ) :
    answers call' (f s) calls = answers call s calls ∧
      afterCalls call' (f s) calls = f (afterCalls call s calls) := by
  induction calls generalizing s with
  | nil => exact ⟨rfl, rfl⟩
  | cons c calls ih =>
    obtain ⟨hanswers, hafter⟩ := ih (call s c).2
    have hnext : (call' (f s) c).2 = f (call s c).2 := congrArg Prod.snd (hcall s c)
    rw [answers, answers, hcall, hanswers]
    refine ⟨rfl, ?_⟩
    rw [afterCalls, List.foldl_cons, hnext]
    exact hafter

theorem answers_append (s : σ) (calls more : List κ) : answers call s (calls ++ more) =
    answers call s calls ++ answers call (afterCalls call s calls) more := by
  induction calls generalizing s with
  | nil => rfl
  | cons c calls ih =>
    rw [List.cons_append, answers, ih, answers, List.cons_append]
    rfl

theorem afterCalls_append (s : σ) (calls more : List κ) :
    afterCalls call s (calls ++ more) = afterCalls call (afterCalls call s calls) more :=
  List.foldl_append

end

end WireCodec
