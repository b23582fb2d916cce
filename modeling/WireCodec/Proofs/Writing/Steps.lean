import WireCodec.Frame.Writer
import WireCodec.Proofs.Resumption

/-!
Writing as steps that use up a supply: the room that is left in a buffer. The supply is extended by
making the buffer larger, and a place is what was written before.
-/

namespace WireCodec

namespace WriteCursor

variable {c c' : WriteCursor}

theorem eq_of (h : c.capacity = c'.capacity) (h' : c.written.toList = c'.written.toList) :
    c = c' := by
  obtain ⟨capacity, written, fits⟩ := c
  obtain ⟨capacity', written', fits'⟩ := c'
  cases h
  cases Array.ext' h'
  rfl

/-- The cursor behind other bytes, in a buffer with more room. -/
def extend (c : WriteCursor) (before : Bytes) (room : Nat) : WriteCursor where
  capacity := c.capacity + before.length + room
  written := before.toArray ++ c.written
  fits := by
    have := c.fits
    rw [Array.size_append, List.size_toArray]
    omega

@[simp] theorem written_extend (c : WriteCursor) (before : Bytes) (room : Nat) :
    (c.extend before room).written.toList = before ++ c.written.toList := by
  simp [extend]

theorem extend_nil_zero (c : WriteCursor) : c.extend [] 0 = c :=
  eq_of rfl (by simp)

@[simp] theorem capacity_extend (c : WriteCursor) (before : Bytes) (room : Nat) :
    (c.extend before room).capacity = c.capacity + before.length + room := rfl

@[simp] theorem size_extend (c : WriteCursor) (before : Bytes) (room : Nat) :
    (c.extend before room).written.size = before.length + c.written.size := by
  simp [extend]

@[simp] theorem remaining_extend (c : WriteCursor) (before : Bytes) (room : Nat) :
    (c.extend before room).remaining = c.remaining + room := by
  have := c.fits
  rw [remaining, remaining, capacity_extend, size_extend]
  omega

@[simp] theorem written_putPartial (c : WriteCursor) (bs : Bytes) :
    (c.putPartial bs).written.toList = c.written.toList ++ bs.take c.remaining := by
  simp [putPartial]

@[simp] theorem capacity_putPartial (c : WriteCursor) (bs : Bytes) :
    (c.putPartial bs).capacity = c.capacity := rfl

theorem size_written (c : WriteCursor) : c.written.size = c.written.toList.length := by simp

theorem size_putPartial (c : WriteCursor) (bs : Bytes) :
    (c.putPartial bs).written.size = c.written.size + min c.remaining bs.length := by
  rw [size_written, written_putPartial, List.length_append, List.length_take, ← size_written]

@[simp] theorem remaining_putPartial (c : WriteCursor) (bs : Bytes) :
    (c.putPartial bs).remaining = c.remaining - bs.length := by
  have := c.fits
  rw [remaining, size_putPartial, capacity_putPartial, remaining]
  omega

theorem putAll?_eq (c : WriteCursor) (bs : Bytes) :
    c.putAll? bs = if bs.length ≤ c.remaining then some (c.putPartial bs) else none := by
  have hfits := c.fits
  by_cases h : bs.length ≤ c.remaining
  · have h' : c.written.size + bs.length ≤ c.capacity := by
      rw [remaining] at h
      omega
    rw [putAll?, dif_pos h', if_pos h]
    congr 1
    exact eq_of rfl (by simp [List.take_of_length_le h])
  · have h' : ¬ c.written.size + bs.length ≤ c.capacity := by
      rw [remaining] at h
      omega
    rw [putAll?, dif_neg h', if_neg h]

/-- More room behind bytes that fit, and other bytes before them, change nothing. -/
theorem putPartial_extend {bs : Bytes} {room : Nat} (h : bs.length ≤ c.remaining ∨ room = 0)
    (before : Bytes) :
    (c.extend before room).putPartial bs = (c.putPartial bs).extend before room := by
  have htake : bs.take (c.remaining + room) = bs.take c.remaining := by
    rcases h with h | rfl
    · rw [List.take_of_length_le h, List.take_of_length_le (by omega)]
    · rfl
  exact eq_of rfl (by simp [htake])

/-- Writing what fits and the rest later is writing all of it later. -/
theorem putPartial_putPartial (c : WriteCursor) (bs : Bytes) (room : Nat)
    (h : c.remaining ≤ bs.length) :
    ((c.putPartial bs).extend [] room).putPartial (bs.drop c.remaining) =
      (c.extend [] room).putPartial bs := by
  refine eq_of rfl ?_
  have hzero : c.remaining - bs.length = 0 := by omega
  simp [hzero, List.take_add]

/-- The second cursor is reached from the first by writing. -/
def Precedes (c c' : WriteCursor) : Prop :=
  c'.capacity = c.capacity ∧ ∃ bs, c'.written.toList = c.written.toList ++ bs

/-- The second cursor has written more than there is room for at the first. -/
def Exceeds (c c' : WriteCursor) : Prop := c.capacity < c'.written.size

theorem Precedes.refl (c : WriteCursor) : c.Precedes c := ⟨rfl, [], by simp⟩

theorem Precedes.trans {c₁ c₂ c₃ : WriteCursor} (h : c₁.Precedes c₂) (h' : c₂.Precedes c₃) :
    c₁.Precedes c₃ := by
  obtain ⟨hcap, as, has⟩ := h
  obtain ⟨hcap', bs, hbs⟩ := h'
  exact ⟨hcap'.trans hcap, as ++ bs, by rw [hbs, has, List.append_assoc]⟩

theorem exceeds_of_precedes {c₁ c₂ c₃ : WriteCursor} (h : c₁.Precedes c₂) (h' : c₂.Exceeds c₃) :
    c₁.Exceeds c₃ := by
  rw [Exceeds] at h' ⊢
  rwa [← h.1]

theorem precedes_of_exceeds {c₁ c₂ c₃ : WriteCursor} (h : c₁.Exceeds c₂) (h' : c₂.Precedes c₃) :
    c₁.Exceeds c₃ := by
  obtain ⟨-, bs, hbs⟩ := h'
  rw [Exceeds, size_written] at h ⊢
  rw [hbs, List.length_append]
  omega

end WriteCursor

/-- The writer behind other bytes, in a buffer with more room. -/
def Writer.extend (w : Writer) (before : Bytes) (room : Nat) : Writer :=
  { w with cursor := w.cursor.extend before room }

@[simp] theorem Writer.extend_cursor (w : Writer) (before : Bytes) (room : Nat) :
    (w.extend before room).cursor = w.cursor.extend before room := rfl

theorem Writer.extend_nil_zero (w : Writer) : w.extend [] 0 = w := by
  rw [Writer.extend, WriteCursor.extend_nil_zero]

/-- The writer after writing what fits of some bytes. -/
def Writer.wrote (w : Writer) (bs : Bytes) : Writer := { w with cursor := w.cursor.putPartial bs }

theorem Writer.wrote_precedes (w : Writer) (bs : Bytes) : w.cursor.Precedes (w.wrote bs).cursor :=
  ⟨rfl, bs.take w.cursor.remaining, w.cursor.written_putPartial bs⟩

instance : Supplied Writer where
  Place := Bytes
  Supply := Nat
  here := []
  nothing := 0
  extend := Writer.extend
  extend_here := Writer.extend_nil_zero
  Sound _ := True
  sound_extend _ _ _ := trivial
  Precedes w w' := w.cursor.Precedes w'.cursor
  precedes_refl w := .refl w.cursor
  precedes_trans := WriteCursor.Precedes.trans
  Exceeds w w' := w.cursor.Exceeds w'.cursor
  exceeds_of_precedes := WriteCursor.exceeds_of_precedes
  precedes_of_exceeds := WriteCursor.precedes_of_exceeds

namespace Write

open Step

variable {α δ : Type} {f : Writer → δ}

theorem progress_bind (q : WriteProgress → Write α) (w : Writer) :
    (progress >>= q) w = q w.stack.current.progress w := rfl

theorem modifyProgress_bind (g : WriteProgress → WriteProgress) (q : Unit → Write α) (w : Writer) :
    (modifyProgress g >>= q) w =
      q () { w with stack := w.stack.modify fun f => { f with progress := g f.progress } } := rfl

theorem settled_modifyFrame {g : WriteFrame → WriteFrame}
    (hf : ∀ w : Writer, f { w with stack := w.stack.modify g } = f w) :
    Settled f (modifyFrame g) := by
  refine ⟨fun w hw => ⟨hw, .refl _, fun _ _ => rfl⟩, hf, fun w w' h => ?_⟩
  cases h

theorem settled_modifyProgress {g : WriteProgress → WriteProgress}
    (hf : ∀ w : Writer, f { w with stack := w.stack.modify fun frame =>
      { frame with progress := g frame.progress } } = f w) : Settled f (modifyProgress g) :=
  settled_modifyFrame hf

theorem put_apply (bs : Bytes) (w : Writer) :
    put bs w = if bs.length ≤ w.cursor.remaining then .ok () (w.wrote bs)
      else .error .suspended w := by
  rw [put, get_bind, WriteCursor.putAll?_eq]
  split <;> rfl

/-! The rules of resumption for writers, in terms of bytes and room. -/

section

variable {p : Write α} {w w' : Writer}

theorem extendsAt_of_ok (x : α) (hc : w.cursor.Precedes w'.cursor)
    (he : ∀ before room, p (w.extend before room) = .ok x (w'.extend before room)) :
    ExtendsAt p w :=
  .of_ok x trivial hc he

theorem extendsAt_of_failed (e : Error) (w' : Writer)
    (he : ∀ before room, p (w.extend before room) =
      .error (.failed e) (w'.extend before room)) : ExtendsAt p w :=
  .of_failed e w' he

theorem extendsAt_of_suspended (hc : w.cursor.Precedes w'.cursor)
    (he : ∀ before, p (w.extend before 0) = .error .suspended (w'.extend before 0))
    (hx : ∀ {room x t}, p (w.extend [] room) = .ok x t → w.cursor.Exceeds t.cursor) :
    ExtendsAt p w :=
  .of_suspended trivial hc he hx

theorem ok_extend (h : Extends p) {x : α} (hp : p w = .ok x w') (before : Bytes) (room : Nat) :
    p (w.extend before room) = .ok x (w'.extend before room) :=
  (h.ok trivial hp).2 before room

theorem ok_precedes (h : Extends p) {x : α} (hp : p w = .ok x w') :
    w.cursor.Precedes w'.cursor :=
  h.ok_precedes trivial hp

theorem failed_extend (h : Extends p) {e : Error} (hp : p w = .error (.failed e) w')
    (before : Bytes) (room : Nat) :
    p (w.extend before room) = .error (.failed e) (w'.extend before room) :=
  h.failed trivial hp before room

theorem suspended_extend (h : Extends p) (hp : p w = .error .suspended w') (before : Bytes) :
    p (w.extend before 0) = .error .suspended (w'.extend before 0) :=
  (h.suspended trivial hp).2 before

theorem suspended_precedes (h : Extends p) (hp : p w = .error .suspended w') :
    w.cursor.Precedes w'.cursor :=
  h.suspended_precedes trivial hp

theorem exceeds_extend (h : Extends p) (hp : p w = .error .suspended w') {room : Nat} {x : α}
    {t : Writer} (ht : p (w.extend [] room) = .ok x t) : w.cursor.Exceeds t.cursor :=
  h.exceeds trivial hp ht

theorem resume_extend (h : Resumes p) (hp : p w = .error .suspended w') (room : Nat) :
    p (w.extend [] room) = p (w'.extend [] room) :=
  h w w' trivial hp room

theorem resumes_iff : Resumes p ↔ ∀ w w', p w = .error .suspended w' →
    ∀ room, p (w.extend [] room) = p (w'.extend [] room) :=
  ⟨fun h w w' => h w w' trivial, fun h w w' _ => h w w'⟩

end

end Write

end WireCodec
