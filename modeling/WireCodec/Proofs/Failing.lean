import WireCodec.Bytes.Encode

/-!
What a computation can fail with: of the errors of its steps, those of the steps that may fail. Two
errors say that a message got out of step with the progress that was kept of it; all others are
`Error.Foreign` to that progress.
-/

namespace WireCodec

/-- If a computation fails, its error has a property. -/
def FailsWith {α : Type} (P : Error → Prop) (x : Except Error α) : Prop := ∀ e, x = .error e → P e

namespace FailsWith

variable {α β : Type} {P Q : Error → Prop} {x : Except Error α}

theorem ok (a : α) : FailsWith P (.ok a) := nofun

theorem error {e : Error} (h : P e) : FailsWith P (.error e : Except Error α) := by
  intro e' he
  cases he
  exact h

theorem mono (h : FailsWith P x) (hpq : ∀ e, P e → Q e) : FailsWith Q x :=
  fun e he => hpq e (h e he)

theorem bind {f : α → Except Error β} (hx : FailsWith P x) (hf : ∀ a, FailsWith P (f a)) :
    FailsWith P (x >>= f) := by
  cases x with
  | ok a => exact hf a
  | error e => exact .error (hx e rfl)

theorem map (f : α → β) (hx : FailsWith P x) : FailsWith P (f <$> x) := by
  cases x with
  | ok a => exact .ok (f a)
  | error e => exact .error (hx e rfl)

theorem each {f : β → Except Error Bytes} {xs : List β} (h : ∀ x ∈ xs, FailsWith P (f x)) :
    FailsWith P (Encode.each f xs) := by
  induction xs with
  | nil => exact .ok []
  | cons x xs ih =>
    obtain ⟨hx, hxs⟩ := List.forall_mem_cons.mp h
    exact hx.bind fun b => (ih hxs).bind fun bs => .ok (b ++ bs)

theorem mapM {f : α → Except Error β} {xs : List α} (h : ∀ x, FailsWith P (f x)) :
    FailsWith P (xs.mapM f) := by
  induction xs with
  | nil => exact .ok []
  | cons x xs ih =>
    rw [List.mapM_cons]
    exact (h x).bind fun y => ih.bind fun ys => .ok (y :: ys)

end FailsWith

/-- Whether an error says that the progress of a field belongs to another field or value. -/
def Error.isOutOfStep : Error → Bool
  | .unexpectedProgress => true
  | .fieldChanged => true
  | _ => false

/-- An error that has nothing to do with the progress of a field. -/
def Error.Foreign (e : Error) : Prop := e.isOutOfStep = false

theorem Error.Foreign.of_kind {e : Error} (h : e.kind ≠ .protocol) : e.Foreign := by
  cases e with
  | unexpectedProgress => exact absurd rfl h
  | fieldChanged => exact absurd rfl h
  | _ => rfl

theorem Error.foreign_of_serialization (e : Error) (h : e.kind = .serialization) : e.Foreign :=
  .of_kind fun hkind => by rw [h] at hkind; cases hkind

end WireCodec
