import WireCodec.Error
import WireCodec.Frame.Stack

/-!
Steps that use up a supply, such as the bytes that are there to be read or the room that is left
in a buffer, and that stop where it runs out. A step that is `Resumable` can be stopped anywhere:
taking it again with more of the supply comes to what taking it once with all of it comes to.
-/

namespace WireCodec

/-- States that hold a supply which steps use up from one place to the next. -/
class Supplied (σ : Type) where
  Place : Type
  Supply : Type
  /-- no other place -/
  here : Place
  nothing : Supply
  /-- the state at another place, with more of the supply behind what is left -/
  extend : σ → Place → Supply → σ
  extend_here : ∀ s, extend s here nothing = s
  Sound : σ → Prop
  sound_extend : ∀ {s}, Sound s → ∀ d m, Sound (extend s d m)
  /-- the second state is reached from the first by using some of the supply -/
  Precedes : σ → σ → Prop
  precedes_refl : ∀ s, Precedes s s
  precedes_trans : ∀ {s₁ s₂ s₃}, Precedes s₁ s₂ → Precedes s₂ s₃ → Precedes s₁ s₃
  /-- the second state is reached by using more than all of the supply of the first -/
  Exceeds : σ → σ → Prop
  exceeds_of_precedes : ∀ {s₁ s₂ s₃}, Precedes s₁ s₂ → Exceeds s₂ s₃ → Exceeds s₁ s₃
  precedes_of_exceeds : ∀ {s₁ s₂ s₃}, Exceeds s₁ s₂ → Precedes s₂ s₃ → Exceeds s₁ s₃

/-- A step from state to state, which may stop early. -/
abbrev Step (σ α : Type) := EStateM (Stop Error) σ α

section

variable {σ α β γ δ : Type}

namespace Step

variable {p : Step σ α} {q : α → Step σ β} {s s' : σ}

theorem bind_apply (p : Step σ α) (q : α → Step σ β) (s : σ) :
    (p >>= q) s = match p s with
      | .ok x s' => q x s'
      | .error e s' => .error e s' := by
  change EStateM.bind p q s = _
  unfold EStateM.bind
  cases p s <;> rfl

theorem bind_ok {x : α} (h : p s = .ok x s') : (p >>= q) s = q x s' := by
  rw [bind_apply, h]

theorem bind_error {e : Stop Error} (h : p s = .error e s') : (p >>= q) s = .error e s' := by
  rw [bind_apply, h]

theorem ok_of_bind {y : β} (h : (p >>= q) s = .ok y s') :
    ∃ x s₁, p s = .ok x s₁ ∧ q x s₁ = .ok y s' := by
  rw [bind_apply] at h
  cases hp : p s with
  | ok x s₁ => rw [hp] at h; exact ⟨x, s₁, rfl, h⟩
  | error e s₁ => rw [hp] at h; cases h

theorem error_of_map {f : α → β} {e : Stop Error} (h : (f <$> p) s = .error e s') :
    p s = .error e s' := by
  rw [map_eq_pure_bind, bind_apply] at h
  cases hp : p s with
  | ok x s₁ => rw [hp] at h; cases h
  | error e s₁ => rw [hp] at h; cases h; rfl

theorem map_congr (f : α → β) {q : Step σ α} {t : σ} (h : p s = q t) :
    (f <$> p) s = (f <$> q) t := by
  rw [map_eq_pure_bind, map_eq_pure_bind, bind_apply, bind_apply, h]

theorem pure_apply (x : α) (s : σ) : (pure x : Step σ α) s = .ok x s := rfl

theorem throw_apply (e : Stop Error) (s : σ) : (throw e : Step σ α) s = .error e s := rfl

theorem get_bind (q : σ → Step σ α) (s : σ) : (get >>= q) s = q s s := rfl

end Step

open Step

/-! ## Steps that keep a part of the state -/

/-- However a step ends, it leaves what `f` sees of the state as it was. -/
def Keeps (f : σ → δ) (p : Step σ α) : Prop := ∀ s,
  match p s with
  | .ok _ s' => f s' = f s
  | .error _ s' => f s' = f s

namespace Keeps

variable {f : σ → δ} {p : Step σ α} {s s' : σ}

theorem ok (h : Keeps f p) {x : α} (hp : p s = .ok x s') : f s' = f s := by
  simpa [hp] using h s

theorem error (h : Keeps f p) {e : Stop Error} (hp : p s = .error e s') : f s' = f s := by
  simpa [hp] using h s

theorem comp (g : δ → γ) (h : Keeps f p) : Keeps (fun s => g (f s)) p := by
  intro s
  cases hp : p s with
  | ok x s' => exact congrArg g (h.ok hp)
  | error e s' => exact congrArg g (h.error hp)

theorem pure (x : α) : Keeps f (Pure.pure x : Step σ α) := fun _ => rfl

theorem throw (e : Stop Error) : Keeps f (MonadExcept.throw e : Step σ α) := fun _ => rfl

theorem bind {q : α → Step σ β} (hp : Keeps f p) (hq : ∀ x, Keeps f (q x)) :
    Keeps f (p >>= q) := by
  intro s
  rw [bind_apply]
  cases h : p s with
  | error e s₁ => exact hp.error h
  | ok x s₁ =>
    have hf := hp.ok h
    have hq := hq x s₁
    rw [hf] at hq
    exact hq

theorem map (g : α → β) (hp : Keeps f p) : Keeps f (g <$> p) := by
  rw [map_eq_pure_bind]
  exact hp.bind fun x => .pure (g x)

end Keeps

/-! ## Steps that do not stop, or stop where they are -/

/-- A step never stops for want of a supply. -/
def Settles (p : Step σ α) : Prop := ∀ s s', p s ≠ .error .suspended s'

namespace Settles

variable {p : Step σ α}

theorem pure (x : α) : Settles (Pure.pure x : Step σ α) := by
  intro s s' h
  rw [pure_apply] at h
  cases h

theorem fail (e : Error) : Settles (throw (.failed e) : Step σ α) := by
  intro s s' h
  rw [throw_apply] at h
  cases h

theorem bind {q : α → Step σ β} (hp : Settles p) (hq : ∀ x, Settles (q x)) :
    Settles (p >>= q) := by
  intro s s' h
  rw [bind_apply] at h
  cases hs : p s with
  | ok x s₁ =>
    rw [hs] at h
    exact hq x s₁ s' h
  | error e s₁ =>
    rw [hs] at h
    cases h
    exact hp s s' hs

theorem map (f : α → β) (hp : Settles p) : Settles (f <$> p) := by
  rw [map_eq_pure_bind]
  exact hp.bind fun x => .pure (f x)

end Settles

/-- A step that stops keeps what its parts keep where they stop. -/
theorem Step.eq_of_bind_suspended {f : σ → δ} {p : Step σ α} {q : α → Step σ β} {s s' : σ}
    (hp : Keeps f p) (hq : ∀ {x s₁ s₂}, q x s₁ = .error .suspended s₂ → f s₂ = f s₁)
    (h : (p >>= q) s = .error .suspended s') : f s' = f s := by
  rw [bind_apply] at h
  cases hs : p s with
  | ok x s₁ => rw [hs] at h; exact (hq h).trans (hp.ok hs)
  | error e s₁ => rw [hs] at h; cases h; exact hp.error hs

theorem Step.suspended_of_bind {p : Step σ α} {q : α → Step σ β} {s s' : σ}
    (hq : ∀ x, Settles (q x)) (h : (p >>= q) s = .error .suspended s') :
    p s = .error .suspended s' := by
  rw [bind_apply] at h
  cases hp : p s with
  | ok x s₁ => rw [hp] at h; exact absurd h (hq x s₁ s')
  | error e s₁ => rw [hp] at h; cases h; rfl

/-- Where a step stops for want of a supply, it leaves the state as it was. -/
def Still (p : Step σ α) : Prop := ∀ s s', p s = .error .suspended s' → s' = s

namespace Still

variable {p : Step σ α}

theorem suspend : Still (throw .suspended : Step σ α) := by
  intro s s' h
  rw [throw_apply] at h
  cases h
  rfl

theorem bind_settles {q : α → Step σ β} (hp : Still p) (hq : ∀ x, Settles (q x)) :
    Still (p >>= q) :=
  fun s s' h => hp s s' (suspended_of_bind hq h)

theorem map (f : α → β) (hp : Still p) : Still (f <$> p) := by
  rw [map_eq_pure_bind]
  exact hp.bind_settles fun x => .pure (f x)

end Still

/-! ## Steps that are taken once, and steps for each of a list -/

/-- Takes a step unless it was taken before. -/
def once (seen : σ → Bool) (step : Step σ Unit) : Step σ Unit := do
  unless seen (← get) do step

theorem once_of_seen {seen : σ → Bool} {step : Step σ Unit} {s : σ} (h : seen s = true) :
    once seen step s = .ok () s := by
  rw [once, get_bind, h]
  rfl

theorem once_of_not_seen {seen : σ → Bool} {step : Step σ Unit} {s : σ} (h : seen s = false) :
    once seen step s = step s := by
  rw [once, get_bind, h]
  rfl

theorem Keeps.once {f : σ → δ} {seen : σ → Bool} {step : Step σ Unit} (h : Keeps f step) :
    Keeps f (once seen step) := by
  intro s
  cases hs : seen s with
  | true => rw [once_of_seen hs]
  | false => rw [once_of_not_seen hs]; exact h s

/-- Takes a step for each of a list. -/
def forEach (step : β → Step σ Unit) : List β → Step σ Unit
  | [] => return
  | x :: xs => do
    step x
    forEach step xs

/-- Takes a step for each of a list but for those that a counter counts. -/
def forEachFrom (count : σ → Nat) (step : β → Step σ Unit) (xs : List β) : Step σ Unit := do
  forEach step (xs.drop (count (← get)))

end

/-! ## Steps that can be stopped anywhere -/

section

open Step

variable {σ : Type} [Supplied σ] {α β γ δ : Type}

open Supplied

/-- What a step comes to from a state: it moves forward, and more of the supply behind what it
uses, or another place, change neither its result nor the state it leaves. A step that stopped is
only moved; it ends only with more than all of the supply. -/
def ExtendsAt (p : Step σ α) (s : σ) : Prop :=
  match p s with
  | .ok x s' => Sound s' ∧ Precedes s s' ∧ ∀ d m, p (extend s d m) = .ok x (extend s' d m)
  | .error (.failed e) s' => ∀ d m, p (extend s d m) = .error (.failed e) (extend s' d m)
  | .error .suspended s' => (Sound s' ∧ Precedes s s' ∧
      ∀ d, p (extend s d nothing) = .error .suspended (extend s' d nothing)) ∧
      ∀ {m x t}, p (extend s here m) = .ok x t → Exceeds s t

namespace ExtendsAt

variable {p : Step σ α} {s s' : σ}

theorem of_ok (x : α) (hs : Sound s') (hc : Precedes s s')
    (he : ∀ d m, p (extend s d m) = .ok x (extend s' d m)) : ExtendsAt p s := by
  have hp : p s = .ok x s' := by simpa only [extend_here] using he here nothing
  rw [ExtendsAt, hp]
  exact ⟨hs, hc, he⟩

theorem of_failed (e : Error) (s' : σ)
    (he : ∀ d m, p (extend s d m) = .error (.failed e) (extend s' d m)) : ExtendsAt p s := by
  have hp : p s = .error (.failed e) s' := by simpa only [extend_here] using he here nothing
  rw [ExtendsAt, hp]
  exact he

theorem of_suspended (hs : Sound s') (hc : Precedes s s')
    (he : ∀ d, p (extend s d nothing) = .error .suspended (extend s' d nothing))
    (hx : ∀ {m x t}, p (extend s here m) = .ok x t → Exceeds s t) : ExtendsAt p s := by
  have hp : p s = .error .suspended s' := by simpa only [extend_here] using he here
  rw [ExtendsAt, hp]
  exact ⟨⟨hs, hc, he⟩, hx⟩

end ExtendsAt

/-- A step does not look beyond what it uses of the supply. -/
def Extends (p : Step σ α) : Prop := ∀ s, Sound s → ExtendsAt p s

namespace Extends

variable {p : Step σ α} {s s' : σ}

theorem ok (h : Extends p) (hs : Sound s) {x : α} (hp : p s = .ok x s') :
    Sound s' ∧ ∀ d m, p (extend s d m) = .ok x (extend s' d m) := by
  have h := h s hs
  rw [ExtendsAt, hp] at h
  exact ⟨h.1, h.2.2⟩

theorem ok_precedes (h : Extends p) (hs : Sound s) {x : α} (hp : p s = .ok x s') :
    Precedes s s' := by
  have h := h s hs
  rw [ExtendsAt, hp] at h
  exact h.2.1

theorem failed (h : Extends p) (hs : Sound s) {e : Error} (hp : p s = .error (.failed e) s') :
    ∀ d m, p (extend s d m) = .error (.failed e) (extend s' d m) := by
  simpa only [ExtendsAt, hp] using h s hs

theorem suspended (h : Extends p) (hs : Sound s) (hp : p s = .error .suspended s') :
    Sound s' ∧ ∀ d, p (extend s d nothing) = .error .suspended (extend s' d nothing) := by
  have h := h s hs
  rw [ExtendsAt, hp] at h
  exact ⟨h.1.1, h.1.2.2⟩

theorem suspended_precedes (h : Extends p) (hs : Sound s) (hp : p s = .error .suspended s') :
    Precedes s s' := by
  have h := h s hs
  rw [ExtendsAt, hp] at h
  exact h.1.2.1

/-- A step stops only if it needs more than there is. -/
theorem exceeds (h : Extends p) (hs : Sound s) (hp : p s = .error .suspended s') {m : Supply σ}
    {x : α} {t : σ} (ht : p (extend s here m) = .ok x t) : Exceeds s t := by
  have h := h s hs
  rw [ExtendsAt, hp] at h
  exact h.2 ht

/-- A step that goes on as another one does from elsewhere. -/
theorem redirect {q : Step σ α} (hq : Extends q) {s₁ : σ} (hs₁ : Sound s₁)
    (hc : ∀ {t}, Precedes s₁ t → Precedes s t) (hx : ∀ {t}, Exceeds s₁ t → Exceeds s t)
    (h : ∀ d m, p (extend s d m) = q (extend s₁ d m)) : ExtendsAt p s := by
  have h₀ : p s = q s₁ := by simpa only [extend_here] using h here nothing
  cases hs : q s₁ with
  | ok x s₂ =>
    obtain ⟨hs₂, he⟩ := hq.ok hs₁ hs
    exact .of_ok x hs₂ (hc (hq.ok_precedes hs₁ hs)) fun d m => (h d m).trans (he d m)
  | error e s₂ =>
    cases e with
    | suspended =>
      obtain ⟨hs₂, he⟩ := hq.suspended hs₁ hs
      exact .of_suspended hs₂ (hc (hq.suspended_precedes hs₁ hs))
        (fun d => (h d nothing).trans (he d)) fun ht =>
          hx (hq.exceeds hs₁ hs ((h here _).symm.trans ht))
    | failed e => exact .of_failed e s₂ fun d m => (h d m).trans (hq.failed hs₁ hs d m)

theorem pure (x : α) : Extends (Pure.pure x : Step σ α) :=
  fun s hs => ⟨hs, precedes_refl s, fun _ _ => rfl⟩

theorem fail (e : Error) : Extends (throw (.failed e) : Step σ α) := fun _ _ _ _ => rfl

theorem suspend : Extends (throw .suspended : Step σ α) := by
  refine fun s hs => .of_suspended hs (precedes_refl s) (fun _ => rfl) fun ht => ?_
  rw [throw_apply] at ht
  cases ht

theorem bind {q : α → Step σ β} (hp : Extends p) (hq : ∀ x, Extends (q x)) :
    Extends (p >>= q) := by
  intro s hs
  cases h : p s with
  | ok x s₁ =>
    obtain ⟨hs₁, he⟩ := hp.ok hs h
    have hc := hp.ok_precedes hs h
    exact (hq x).redirect hs₁ (precedes_trans hc) (exceeds_of_precedes hc) fun d m =>
      bind_ok (he d m)
  | error e s₁ =>
    cases e with
    | suspended =>
      obtain ⟨hs₁, he⟩ := hp.suspended hs h
      refine .of_suspended hs₁ (hp.suspended_precedes hs h) (fun d => bind_error (he d))
        fun ht => ?_
      obtain ⟨x, t₁, ht₁, ht⟩ := ok_of_bind ht
      have hsound := (hp.ok (sound_extend hs _ _) ht₁).1
      exact precedes_of_exceeds (hp.exceeds hs h ht₁) ((hq x).ok_precedes hsound ht)
    | failed e => exact .of_failed e s₁ fun d m => bind_error (hp.failed hs h d m)

theorem map (f : α → β) (hp : Extends p) : Extends (f <$> p) := by
  rw [map_eq_pure_bind]
  exact hp.bind fun x => .pure (f x)

end Extends

/-- Where a step stopped, taking it again with more of the supply comes to the same as taking it
once with all of it. -/
def Resumes (p : Step σ α) : Prop := ∀ s s', Sound s → p s = .error .suspended s' →
  ∀ m, p (extend s here m) = p (extend s' here m)

namespace Resumes

variable {p : Step σ α} {q : α → Step σ β}

theorem of_settles (h : Settles p) : Resumes p := fun s s' _ hp => absurd hp (h s s')

theorem of_still (h : Still p) : Resumes p := fun s s' _ hp m => by rw [h s s' hp]

theorem bind_settles (hp : Resumes p) (hq : ∀ x, Settles (q x)) : Resumes (p >>= q) := by
  intro s s' hs h m
  rw [bind_apply, hp s s' hs (suspended_of_bind hq h) m, ← bind_apply]

theorem map (f : α → β) (hp : Resumes p) : Resumes (f <$> p) := by
  rw [map_eq_pure_bind]
  exact hp.bind_settles fun x => .pure (f x)

end Resumes

/-- A step that never stops and leaves alone what `f` sees of the state. -/
structure Settled (f : σ → δ) (p : Step σ α) : Prop where
  extension : Extends p
  frame : Keeps f p
  settles : Settles p

namespace Settled

variable {f : σ → δ} {p : Step σ α}

theorem pure (x : α) : Settled f (Pure.pure x : Step σ α) := ⟨.pure x, .pure x, .pure x⟩

theorem fail (e : Error) : Settled f (throw (.failed e) : Step σ α) :=
  ⟨.fail e, .throw _, .fail e⟩

theorem bind {q : α → Step σ β} (hp : Settled f p) (hq : ∀ x, Settled f (q x)) :
    Settled f (p >>= q) :=
  ⟨hp.extension.bind fun x => (hq x).extension, hp.frame.bind fun x => (hq x).frame,
    hp.settles.bind fun x => (hq x).settles⟩

theorem map (g : α → β) (hp : Settled f p) : Settled f (g <$> p) :=
  ⟨hp.extension.map g, hp.frame.map g, hp.settles.map g⟩

end Settled

/-- A step that can be stopped anywhere and leaves alone what `f` sees of the state. -/
structure Resumable (f : σ → δ) (p : Step σ α) : Prop where
  extension : Extends p
  frame : Keeps f p
  resumption : Resumes p

namespace Resumable

variable {f : σ → δ} {p : Step σ α}

theorem of_settled (h : Settled f p) : Resumable f p :=
  ⟨h.extension, h.frame, .of_settles h.settles⟩

theorem suspend : Resumable f (throw .suspended : Step σ α) :=
  ⟨.suspend, .throw _, .of_still .suspend⟩

/-- A step followed by one that never stops. -/
theorem bind_settled {q : α → Step σ β} (hp : Resumable f p) (hq : ∀ x, Settled f (q x)) :
    Resumable f (p >>= q) :=
  ⟨hp.extension.bind fun x => (hq x).extension, hp.frame.bind fun x => (hq x).frame,
    hp.resumption.bind_settles fun x => (hq x).settles⟩

theorem map (g : α → β) (hp : Resumable f p) : Resumable f (g <$> p) :=
  ⟨hp.extension.map g, hp.frame.map g, hp.resumption.map g⟩

theorem comp (g : δ → γ) (hp : Resumable f p) : Resumable (fun s => g (f s)) p :=
  ⟨hp.extension, hp.frame.comp g, hp.resumption⟩

end Resumable

/-- A step that is taken once, and then another one: where either stopped, it goes on. -/
theorem Resumable.once_bind {f : σ → δ} {seen : σ → Bool} {step : Step σ Unit} {p : Step σ α}
    (hseen : ∀ s d m, seen (extend s d m) = seen s) (hstep : Resumable f step)
    (hpause : ∀ {s s'}, step s = .error .suspended s' → seen s' = seen s)
    (hdone : ∀ {s s'}, step s = .ok () s' → seen s' = true) (hp : Resumable f p)
    (hkeep : ∀ {s s'}, p s = .error .suspended s' → seen s' = seen s) :
    Resumable f (once seen step >>= fun _ => p) where
  extension := by
    refine Extends.bind (fun s hs => ?_) fun _ => hp.extension
    cases h : seen s with
    | true => exact .of_ok () hs (precedes_refl s) fun d m => once_of_seen ((hseen s d m).trans h)
    | false =>
      exact hstep.extension.redirect hs id id fun d m =>
        once_of_not_seen ((hseen s d m).trans h)
  frame := hstep.frame.once.bind fun _ => hp.frame
  resumption := by
    intro s s' hs h m
    have hskip {t : σ} (ht : seen t = true) :
        (once seen step >>= fun _ => p) (extend t here m) = p (extend t here m) :=
      bind_ok (once_of_seen ((hseen t here m).trans ht))
    cases hs₀ : seen s with
    | true =>
      rw [bind_ok (once_of_seen hs₀)] at h
      rw [hskip hs₀, hskip ((hkeep h).trans hs₀)]
      exact hp.resumption s s' hs h m
    | false =>
      have hstart : once seen step (extend s here m) = step (extend s here m) :=
        once_of_not_seen ((hseen s here m).trans hs₀)
      rw [bind_apply, once_of_not_seen hs₀] at h
      cases h₁ : step s with
      | ok u s₁ =>
        obtain ⟨hs₁, he⟩ := hstep.extension.ok hs h₁
        rw [h₁] at h
        have h : p s₁ = .error .suspended s' := h
        rw [bind_ok (hstart.trans (he here m)), hskip ((hkeep h).trans (hdone h₁))]
        exact hp.resumption s₁ s' hs₁ h m
      | error e s₁ =>
        rw [h₁] at h
        cases h
        have hagain : once seen step (extend s' here m) = step (extend s' here m) :=
          once_of_not_seen ((hseen s' here m).trans ((hpause h₁).trans hs₀))
        rw [bind_apply, bind_apply, hstart, hagain, hstep.resumption s s' hs h₁ m]

/-- A step for each of a list that can be stopped anywhere, with a counter that tells how many are
taken. -/
structure Counted (f : σ → δ) (count : σ → Nat) (step : β → Step σ Unit) (x : β) : Prop
    extends Resumable f (step x) where
  done : ∀ {s s'}, step x s = .ok () s' → count s' = count s + 1
  paused : ∀ {s s'}, step x s = .error .suspended s' → count s' = count s

section

variable {f : σ → δ} {count : σ → Nat} {step : β → Step σ Unit} {xs : List β}

theorem extends_forEach (h : ∀ x ∈ xs, Counted f count step x) : Extends (forEach step xs) := by
  induction xs with
  | nil => exact .pure ()
  | cons x xs ih =>
    obtain ⟨hx, hxs⟩ := List.forall_mem_cons.mp h
    exact hx.extension.bind fun _ => ih hxs

theorem keeps_forEach (h : ∀ x ∈ xs, Counted f count step x) : Keeps f (forEach step xs) := by
  induction xs with
  | nil => exact .pure ()
  | cons x xs ih =>
    obtain ⟨hx, hxs⟩ := List.forall_mem_cons.mp h
    exact hx.frame.bind fun _ => ih hxs

/-- Where the steps for a list stopped, `j` of them are taken, and those for the others are left. -/
theorem forEach_suspended (h : ∀ x ∈ xs, Counted f count step x) {s s' : σ} (hs : Sound s)
    (hp : forEach step xs s = .error .suspended s') :
    ∃ j, count s' = count s + j ∧
      ∀ m, forEach step xs (extend s here m) = forEach step (xs.drop j) (extend s' here m) := by
  induction xs generalizing s with
  | nil => cases hp
  | cons x xs ih =>
    obtain ⟨hx, hxs⟩ := List.forall_mem_cons.mp h
    rw [forEach, bind_apply] at hp
    cases h₁ : step x s with
    | error e s₁ =>
      rw [h₁] at hp
      cases hp
      refine ⟨0, hx.paused h₁, fun m => ?_⟩
      rw [List.drop_zero, forEach, bind_apply, bind_apply, hx.resumption s s' hs h₁ m]
    | ok u s₁ =>
      obtain ⟨hs₁, he⟩ := hx.extension.ok hs h₁
      rw [h₁] at hp
      obtain ⟨j, hj, hgo⟩ := ih hxs hs₁ hp
      refine ⟨j + 1, ?_, fun m => ?_⟩
      · rw [hj, hx.done h₁, Nat.add_assoc, Nat.add_comm 1]
      · rw [forEach, bind_ok (he here m), List.drop_succ_cons]
        exact hgo m

theorem resumable_forEachFrom (hcount : ∀ s d m, count (extend s d m) = count s)
    (h : ∀ x ∈ xs, Counted f count step x) : Resumable f (forEachFrom count step xs) where
  extension := by
    intro s hs
    have hdrop : ∀ x ∈ xs.drop (count s), Counted f count step x :=
      fun x hx => h x (List.mem_of_mem_drop hx)
    refine (extends_forEach hdrop).redirect hs id id fun d m => ?_
    rw [forEachFrom, get_bind, hcount]
  frame := by
    intro s
    exact keeps_forEach (fun x hx => h x (List.mem_of_mem_drop hx)) s
  resumption := by
    intro s s' hs hp m
    obtain ⟨j, hj, hgo⟩ := forEach_suspended (fun x hx => h x (List.mem_of_mem_drop hx)) hs hp
    rw [forEachFrom, get_bind, get_bind, hcount, hcount, hj, ← List.drop_drop]
    exact hgo m

end

end

/-! ## Levels of a stack -/

namespace FrameStack

variable {φ : Type} [Inhabited φ] {s t : FrameStack φ}

theorem above_descend (s : FrameStack φ) : s.descend.above = s.current :: s.above := by
  obtain ⟨above, current, _ | ⟨f, below⟩⟩ := s <;> rfl

/-- Going up again leads to the level that was left. -/
theorem ascend_of_above (h : t.above = s.descend.above) (finished : Bool) :
    (t.ascend finished).above = s.above ∧ (t.ascend finished).current = s.current := by
  obtain ⟨above, current, below⟩ := t
  rw [above_descend] at h
  cases h
  exact ⟨rfl, rfl⟩

/-- Going down again leads to the frame that was left behind. -/
theorem descend_ascend (h : t.above = s.descend.above) : (t.ascend false).descend = t := by
  obtain ⟨above, current, below⟩ := t
  rw [above_descend] at h
  cases h
  rfl

/-- Nothing is left behind in the frames below. -/
def Cleared (s : FrameStack φ) : Prop := ∀ f ∈ s.below, f = default

theorem cleared_empty : (empty : FrameStack φ).Cleared := nofun

theorem cleared_reset (s : FrameStack φ) : s.reset.Cleared :=
  fun _ hf => List.eq_of_mem_replicate hf

/-- Going down where nothing is left behind leads to a cleared frame. -/
theorem Cleared.descend (h : s.Cleared) : s.descend.current = default ∧ s.descend.Cleared := by
  obtain ⟨above, current, below⟩ := s
  cases below with
  | nil => exact ⟨rfl, nofun⟩
  | cons f below =>
    obtain ⟨rfl, hbelow⟩ := List.forall_mem_cons.mp h
    exact ⟨rfl, hbelow⟩

theorem Cleared.ascend (h : s.Cleared) : (s.ascend true).Cleared := by
  obtain ⟨_ | ⟨f, above⟩, current, below⟩ := s
  · exact h
  · exact List.forall_mem_cons.mpr ⟨rfl, h⟩

end FrameStack

end WireCodec
