import WireCodec.Frame.Reader
import WireCodec.Proofs.Resumption

/-!
Reading as steps that use up a supply: the bytes that are there. The supply is extended by more
bytes behind them, and a place is a position. Probes are the exception to what holds of all other
steps: a probe tells how many bytes were left, so types of messages with probes are set apart by
`Schema.Steady`.
-/

namespace WireCodec

/-- A type of messages without probes. -/
def Schema.Steady (s : Schema) : Prop := FieldKind.probe ∉ s.fields

/-- Every type of messages that a reader can meet is without probes. -/
structure ReadContext.Steady (ctx : ReadContext) : Prop where
  catalog : ∀ type, (ctx.catalog.schema type).Steady
  factories : ∀ s ∈ ctx.factories.schemas, s.Steady

/-- A frame in which no message with probes is set aside. -/
def ReadFrame.Steady (f : ReadFrame) : Prop :=
  ∀ s, f.progress.parked = some (.message s) → s.Steady

/-- A stack of frames that all have a property. -/
structure FrameStack.All {φ : Type} (P : φ → Prop) (s : FrameStack φ) : Prop where
  above : ∀ f ∈ s.above, P f
  current : P s.current
  below : ∀ f ∈ s.below, P f

namespace FrameStack.All

variable {φ : Type} {P : φ → Prop} {s : FrameStack φ}

theorem modify {g : φ → φ} (h : s.All P) (hg : P s.current → P (g s.current)) :
    (s.modify g).All P :=
  ⟨h.above, hg h.current, h.below⟩

variable [Inhabited φ]

theorem descend (h : s.All P) (h₀ : P default) : s.descend.All P := by
  obtain ⟨above, current, below⟩ := s
  have habove : ∀ f ∈ current :: above, P f := List.forall_mem_cons.mpr ⟨h.current, h.above⟩
  cases below with
  | nil => exact ⟨habove, h₀, nofun⟩
  | cons f below =>
    obtain ⟨hf, hbelow⟩ := List.forall_mem_cons.mp h.below
    exact ⟨habove, hf, hbelow⟩

theorem ascend (h : s.All P) (h₀ : P default) (finished : Bool) : (s.ascend finished).All P := by
  obtain ⟨above, current, below⟩ := s
  have hleft : P (if finished then default else current) := by
    cases finished
    · exact h.current
    · exact h₀
  cases above with
  | nil => exact ⟨nofun, hleft, h.below⟩
  | cons f above =>
    obtain ⟨hf, habove⟩ := List.forall_mem_cons.mp h.above
    exact ⟨habove, hf, List.forall_mem_cons.mpr ⟨hleft, h.below⟩⟩

theorem reset (h₀ : P default) : s.reset.All P :=
  ⟨nofun, h₀, fun _ hf => List.eq_of_mem_replicate hf ▸ h₀⟩

end FrameStack.All

/-- A reader whose frames have no message with probes set aside. -/
def Reader.Steady (r : Reader) : Prop := r.stack.All ReadFrame.Steady

theorem ReadFrame.steady_default : (default : ReadFrame).Steady := nofun

/-- The cursor at a later position and with more bytes after those it has. -/
def ReadCursor.extend (c : ReadCursor) (d : Nat) (bs : Bytes) : ReadCursor :=
  ⟨c.position + d, c.rest ++ bs⟩

/-- The second position is reached from the first by passing over bytes. -/
def ReadCursor.Precedes (c c' : ReadCursor) : Prop :=
  ∃ taken, c.rest = taken ++ c'.rest ∧ c'.position = c.position + taken.length

theorem ReadCursor.Precedes.refl (c : ReadCursor) : c.Precedes c := ⟨[], rfl, rfl⟩

theorem ReadCursor.Precedes.trans {c₁ c₂ c₃ : ReadCursor} (h : c₁.Precedes c₂)
    (h' : c₂.Precedes c₃) : c₁.Precedes c₃ := by
  obtain ⟨as, hrest, hpos⟩ := h
  obtain ⟨bs, hrest', hpos'⟩ := h'
  refine ⟨as ++ bs, ?_, ?_⟩
  · rw [hrest, hrest', List.append_assoc]
  · rw [hpos', hpos, List.length_append, Nat.add_assoc]

/-- From the start of the bytes no cursor leads past their end, and what it has not passed is left. -/
theorem ReadCursor.precedes_ofBytes {c : ReadCursor} {bs : Bytes} (h : (ofBytes bs).Precedes c) :
    c.position ≤ bs.length ∧ c.rest = bs.drop c.position := by
  obtain ⟨taken, hrest, hpos⟩ := h
  change bs = taken ++ c.rest at hrest
  simp [hrest, hpos, ofBytes]

/-- The second position is beyond all the bytes of the first. -/
def ReadCursor.Exceeds (c c' : ReadCursor) : Prop := c.position + c.rest.length < c'.position

theorem ReadCursor.exceeds_of_precedes {c₁ c₂ c₃ : ReadCursor} (h : c₁.Precedes c₂)
    (h' : c₂.Exceeds c₃) : c₁.Exceeds c₃ := by
  obtain ⟨bs, hrest, hpos⟩ := h
  rw [Exceeds] at h' ⊢
  rw [hrest, List.length_append]
  omega

theorem ReadCursor.precedes_of_exceeds {c₁ c₂ c₃ : ReadCursor} (h : c₁.Exceeds c₂)
    (h' : c₂.Precedes c₃) : c₁.Exceeds c₃ := by
  obtain ⟨bs, -, hpos⟩ := h'
  rw [Exceeds] at h ⊢
  omega

/-- The reader at a later position and with more bytes after those it has. -/
def Reader.extend (r : Reader) (d : Nat) (bs : Bytes) : Reader :=
  { r with cursor := r.cursor.extend d bs }

@[simp] theorem Reader.extend_stack (r : Reader) (d : Nat) (bs : Bytes) :
    (r.extend d bs).stack = r.stack := rfl

@[simp] theorem Reader.extend_cursor (r : Reader) (d : Nat) (bs : Bytes) :
    (r.extend d bs).cursor = r.cursor.extend d bs := rfl

theorem Reader.extend_zero_nil (r : Reader) : r.extend 0 [] = r := by
  simp [Reader.extend, ReadCursor.extend]

instance : Supplied Reader where
  Place := Nat
  Supply := Bytes
  here := 0
  nothing := []
  extend := Reader.extend
  extend_here := Reader.extend_zero_nil
  Sound := Reader.Steady
  sound_extend h _ _ := h
  Precedes r r' := r.cursor.Precedes r'.cursor
  precedes_refl r := .refl r.cursor
  precedes_trans := ReadCursor.Precedes.trans
  Exceeds r r' := r.cursor.Exceeds r'.cursor
  exceeds_of_precedes := ReadCursor.exceeds_of_precedes
  precedes_of_exceeds := ReadCursor.precedes_of_exceeds

namespace Read

variable {α δ : Type} {f : Reader → δ}

theorem modifyFrame_apply (g : ReadFrame → ReadFrame) (r : Reader) :
    modifyFrame g r = .ok () { r with stack := r.stack.modify g } := rfl

theorem progress_bind (q : ReadProgress → Read α) (r : Reader) :
    (progress >>= q) r = q r.stack.current.progress r := rfl

theorem modifyProgress_bind (g : ReadProgress → ReadProgress) (q : Unit → Read α) (r : Reader) :
    (modifyProgress g >>= q) r =
      q () { r with stack := r.stack.modify fun f => { f with progress := g f.progress } } := rfl

theorem advance_apply (step : ReadCursor → Option (α × ReadCursor)) (r : Reader) :
    advance step r = match step r.cursor with
      | some (x, cursor) => .ok x { r with cursor }
      | none => .error .suspended r := by
  rw [advance, Step.get_bind]
  cases step r.cursor <;> rfl

theorem settled_lift (x : Except Error α) : Settled f (lift x) := by
  cases x with
  | ok x => exact .pure x
  | error e => exact .fail e

/-- What a step learns from the frames alone. -/
theorem settled_look (g : FrameStack ReadFrame → α) :
    Settled f (do return g (← get).stack : Read α) := by
  refine ⟨fun r hr => ⟨hr, .refl _, fun _ _ => rfl⟩, fun _ => rfl, fun r r' h => ?_⟩
  cases h

theorem settled_progress : Settled f progress := settled_look fun s => s.current.progress

theorem settles_modifyFrame (g : ReadFrame → ReadFrame) : Settles (modifyFrame g) := by
  intro r r' h
  rw [modifyFrame_apply] at h
  cases h

theorem settled_modifyFrame {g : ReadFrame → ReadFrame} (hg : ∀ f, f.Steady → (g f).Steady)
    (hf : ∀ r : Reader, f { r with stack := r.stack.modify g } = f r) :
    Settled f (modifyFrame g) :=
  ⟨fun _ hr => ⟨hr.modify (hg _), .refl _, fun _ _ => rfl⟩, hf, settles_modifyFrame g⟩

/-- A change of the progress that sets no message aside. -/
theorem settled_modifyProgress {g : ReadProgress → ReadProgress}
    (hg : ∀ p, (g p).parked = p.parked ∨ (g p).parked = none)
    (hf : ∀ r : Reader, f { r with stack := r.stack.modify fun frame =>
      { frame with progress := g frame.progress } } = f r) :
    Settled f (modifyProgress g) := by
  refine settled_modifyFrame (fun f h s hs => ?_) hf
  rcases hg f.progress with hp | hp
  · exact h s (hp ▸ hs)
  · rw [hp] at hs
    cases hs

theorem extends_progress : Extends progress := (settled_progress (f := id)).extension

theorem extends_modifyProgress {g : ReadProgress → ReadProgress}
    (hg : ∀ p, (g p).parked = p.parked ∨ (g p).parked = none) : Extends (modifyProgress g) :=
  (settled_modifyProgress (f := fun _ => ()) hg fun _ => rfl).extension

/-! The rules of resumption for readers, in terms of positions and bytes. -/

section

variable {p : Read α} {r r' : Reader}

theorem extendsAt_of_ok (x : α) (hr : r'.Steady) (hc : r.cursor.Precedes r'.cursor)
    (he : ∀ d bs, p (r.extend d bs) = .ok x (r'.extend d bs)) : ExtendsAt p r :=
  .of_ok x hr hc he

theorem extendsAt_of_failed (e : Error) (r' : Reader)
    (he : ∀ d bs, p (r.extend d bs) = .error (.failed e) (r'.extend d bs)) : ExtendsAt p r :=
  .of_failed e r' he

theorem extendsAt_of_suspended (hr : r'.Steady) (hc : r.cursor.Precedes r'.cursor)
    (he : ∀ d, p (r.extend d []) = .error .suspended (r'.extend d []))
    (hx : ∀ {bs x t}, p (r.extend 0 bs) = .ok x t → r.cursor.Exceeds t.cursor) : ExtendsAt p r :=
  .of_suspended hr hc he hx

theorem extendsAt_of_extends {q : Read α} (hq : Extends q) {r₁ : Reader} (hr₁ : r₁.Steady)
    (hc : r₁.cursor = r.cursor) (h : ∀ d bs, p (r.extend d bs) = q (r₁.extend d bs)) :
    ExtendsAt p r := by
  refine hq.redirect hr₁ (fun {r'} h => ?_) (fun {r'} h => ?_) h
  · change r₁.cursor.Precedes r'.cursor at h
    rwa [hc] at h
  · change r₁.cursor.Exceeds r'.cursor at h
    rwa [hc] at h

theorem ok_extend (h : Extends p) (hr : r.Steady) {x : α} (hp : p r = .ok x r') :
    r'.Steady ∧ ∀ d bs, p (r.extend d bs) = .ok x (r'.extend d bs) :=
  h.ok hr hp

theorem failed_extend (h : Extends p) (hr : r.Steady) {e : Error}
    (hp : p r = .error (.failed e) r') :
    ∀ d bs, p (r.extend d bs) = .error (.failed e) (r'.extend d bs) :=
  h.failed hr hp

theorem suspended_extend (h : Extends p) (hr : r.Steady) (hp : p r = .error .suspended r') :
    r'.Steady ∧ ∀ d, p (r.extend d []) = .error .suspended (r'.extend d []) :=
  h.suspended hr hp

theorem ok_precedes (h : Extends p) (hr : r.Steady) {x : α} (hp : p r = .ok x r') :
    r.cursor.Precedes r'.cursor :=
  h.ok_precedes hr hp

theorem suspended_precedes (h : Extends p) (hr : r.Steady) (hp : p r = .error .suspended r') :
    r.cursor.Precedes r'.cursor :=
  h.suspended_precedes hr hp

theorem exceeds_extend (h : Extends p) (hr : r.Steady) (hp : p r = .error .suspended r')
    {bs : Bytes} {x : α} {t : Reader} (ht : p (r.extend 0 bs) = .ok x t) :
    r.cursor.Exceeds t.cursor :=
  h.exceeds hr hp ht

/-- Taken again from where it stopped, a step goes on. -/
theorem resume_extend (h : Resumes p) (hr : r.Steady) (hp : p r = .error .suspended r') :
    ∀ bs, p (r.extend 0 bs) = p (r'.extend 0 bs) :=
  h r r' hr hp

theorem resumes_iff : Resumes p ↔ ∀ r r', r.Steady → p r = .error .suspended r' →
    ∀ bs, p (r.extend 0 bs) = p (r'.extend 0 bs) := .rfl

end

/-- A step of the cursor that needs all of its bytes at once. -/
theorem extends_advance {step : ReadCursor → Option (α × ReadCursor)}
    (hsome : ∀ {c x c'}, step c = some (x, c') →
      c.Precedes c' ∧ ∀ d bs, step (c.extend d bs) = some (x, c'.extend d bs))
    (hnone : ∀ {c}, step c = none → (∀ d, step (c.extend d []) = none) ∧
      ∀ {bs x c'}, step (c.extend 0 bs) = some (x, c') → c.Exceeds c') :
    Extends (advance step) := by
  intro r hr
  cases h : step r.cursor with
  | none =>
    obtain ⟨he, hx⟩ := hnone h
    refine extendsAt_of_suspended hr (.refl _) (fun d => ?_) fun {bs x t} ht => ?_
    · rw [advance_apply, Reader.extend_cursor, he d]
    · rw [advance_apply, Reader.extend_cursor] at ht
      cases hs : step (r.cursor.extend 0 bs) with
      | none => rw [hs] at ht; cases ht
      | some y => rw [hs] at ht; cases ht; exact hx hs
  | some y =>
    obtain ⟨x, cursor⟩ := y
    obtain ⟨hc, he⟩ := hsome h
    have hr' : Reader.Steady { r with cursor } := hr
    refine extendsAt_of_ok x hr' hc fun d bs => ?_
    rw [advance_apply, Reader.extend_cursor, he d bs]
    rfl

theorem keeps_advance (step : ReadCursor → Option (α × ReadCursor)) :
    Keeps Reader.stack (advance step) := by
  intro r
  rw [advance_apply]
  cases h : step r.cursor <;> rfl

theorem still_advance (step : ReadCursor → Option (α × ReadCursor)) : Still (advance step) := by
  intro r r' h
  rw [advance_apply] at h
  cases hs : step r.cursor with
  | none => rw [hs] at h; cases h; rfl
  | some y => rw [hs] at h; cases h

end Read

end WireCodec
