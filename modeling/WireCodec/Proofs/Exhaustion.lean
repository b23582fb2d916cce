import WireCodec.Config
import WireCodec.Proofs.Resumption

/-!
Steps that stop only for want of one more unit: what is left where they stop is less than the
largest unit that is written and read as a whole.
-/

namespace WireCodec

open Step

variable {σ α β : Type} {left : σ → Nat}

/-- Where a step stops for want of a supply, less of the supply is left than the largest unit
takes. -/
def Exhausts (left : σ → Nat) (p : Step σ α) : Prop := ∀ s s',
  p s = .error .suspended s' → left s' < maxAtomicUnit

namespace Exhausts

variable {p : Step σ α}

theorem of_settles (h : Settles p) : Exhausts left p := fun s s' hp => absurd hp (h s s')

theorem bind {q : α → Step σ β} (hp : Exhausts left p) (hq : ∀ x, Exhausts left (q x)) :
    Exhausts left (p >>= q) := by
  intro s s' h
  rw [bind_apply] at h
  cases hs : p s with
  | ok x s₁ =>
    rw [hs] at h
    exact hq x s₁ s' h
  | error e s₁ =>
    rw [hs] at h
    cases h
    exact hp s s' hs

theorem once {seen : σ → Bool} {step : Step σ Unit} (h : Exhausts left step) :
    Exhausts left (once seen step) := by
  intro s s' hs
  cases hseen : seen s with
  | true =>
    rw [once_of_seen hseen] at hs
    cases hs
  | false =>
    rw [once_of_not_seen hseen] at hs
    exact h s s' hs

theorem forEach {step : β → Step σ Unit} {xs : List β} (h : ∀ x ∈ xs, Exhausts left (step x)) :
    Exhausts left (forEach step xs) := by
  induction xs with
  | nil => exact .of_settles (.pure ())
  | cons x xs ih =>
    obtain ⟨hx, hxs⟩ := List.forall_mem_cons.mp h
    exact hx.bind fun _ => ih hxs

theorem forEachFrom {count : σ → Nat} {step : β → Step σ Unit} {xs : List β}
    (h : ∀ x ∈ xs, Exhausts left (step x)) : Exhausts left (forEachFrom count step xs) :=
  fun s s' hs => forEach (fun x hx => h x (List.mem_of_mem_drop hx)) s s' hs

end Exhausts

end WireCodec
