import WireCodec.Proofs.Exhaustion
import WireCodec.Proofs.Writing.Advances
import WireCodec.Proofs.Writing.Emissions

/-!
A message that is always ready stops only where the next of its units does not fit. So a call that
leaves it unfinished uses its buffer up, but for less than the largest unit takes.
-/

namespace WireCodec

/-- A message whose fields are all ready to be written, at any depth. -/
inductive Message.Ready : Message → Prop
  | mk {type fields} (ready : ∀ x ∈ fields, x ≠ Field.stuck)
    (nested : ∀ x ∈ fields, ∀ m ∈ x.messages, m.Ready) : (Message.mk type fields).Ready

theorem Message.Plain.ready {msg : Message} (h : msg.Plain) : msg.Ready := by
  induction h with
  | mk plain _ ih => exact .mk (fun x hx => (plain x hx).ready) ih

namespace Write

open Step

/-- Where a routine stops, less room is left than the largest unit takes. -/
abbrev Fills {α : Type} (p : Write α) : Prop := Exhausts (fun w => w.cursor.remaining) p

variable {bs : Bytes}

theorem fills_put (h : bs.length ≤ maxAtomicUnit) : Fills (put bs) := by
  intro w w' hw
  rw [put_apply] at hw
  split at hw
  · cases hw
  · next hfits =>
    cases hw
    exact Nat.lt_of_lt_of_le (Nat.lt_of_not_le hfits) h

/-- A byte string stops where no room is left. -/
theorem fills_stream (bs : Bytes) : Fills (stream bs) := by
  intro w w' hw
  rw [stream_apply] at hw
  split at hw
  · cases hw
  · split at hw
    · cases hw
    · next hfits =>
      cases hw
      change (w.cursor.putPartial (bs.drop w.offset)).remaining < maxAtomicUnit
      rw [WriteCursor.remaining_putPartial, Nat.sub_eq_zero_of_le (Nat.le_of_not_le hfits)]
      decide

theorem fills_modifyFrame (u : WriteFrame → WriteFrame) : Fills (modifyFrame u) := by
  intro w w' h
  cases h

theorem compositional_fills : Compositional Fills where
  pure x := .of_settles (.pure x)
  fail e := .of_settles (.fail e)
  bind := .bind
  progress hq w w' hw := by
    rw [progress_bind] at hw
    exact hq _ w w' hw
  modifyProgress _ := fills_modifyFrame _
  put := fills_put
  stream := fills_stream
  probe w := fills_put (by simp [Layout.probe, maxAtomicUnit]) w

section

variable {nested : Message → Write Unit}

theorem fills_putBody (m : Marshaller) {msg : Message} (hmsg : msg.Ready)
    (h : ∀ inner : Message, inner.Ready → Fills (nested inner)) : Fills (putBody nested m msg) := by
  obtain @⟨type, fields, hready, hnested⟩ := hmsg
  have hheader : Fills (writeHeader type) :=
    (fills_put (by simp [maxAtomicUnit])).bind fun _ => fills_modifyFrame _
  have hfield (f : Field) (hf : f ∈ (Message.mk type fields).sent) : Fills (putField nested m f) :=
    have hf := Message.mem_fields_of_mem_sent hf
    compositional_fills.putField m (fun inner hinner => h inner (hnested f hf inner hinner))
      fun hstuck => absurd hstuck (hready f hf)
  rw [putBody_eq]
  exact hheader.once.bind fun _ => .forEachFrom fun f hf => (hfield f hf).bind fun _ =>
    fills_modifyFrame _

end

theorem fills_descend {p : Write Unit} (h : Fills p) : Fills (descend p) := by
  intro w w' hw
  rw [descend_apply] at hw
  cases hp : p w.down with
  | ok u w₁ => rw [hp] at hw; cases hw
  | error stop w₁ =>
    rw [hp] at hw
    cases hw
    exact h w.down w₁ hp

theorem fills_putMessage (m : Marshaller) (levels : Nat) {msg : Message} (h : msg.Ready) :
    Fills (putMessage m levels msg) := by
  induction levels generalizing msg with
  | zero => exact fills_putBody m h fun _ _ => .of_settles (.fail _)
  | succ levels ih => exact fills_putBody m h fun inner hinner => fills_descend (ih hinner)

end Write

namespace WriteSession

open Write

variable {m : Marshaller} {msg : Message} {s : WriteSession} {capacity : Nat} {bs : Bytes}

/-- A call that leaves a message unfinished leaves less room than the largest unit takes. -/
theorem capacity_lt_of_encode (hm : msg.Ready)
    (h : (s.encode m msg capacity).1 = .ok (bs, false)) :
    capacity < bs.length + maxAtomicUnit := by
  rcases ends_or_suspended (writeMessage m msg) ⟨s.stack, .ofCapacity capacity⟩ with
    ⟨failure, w, hp⟩ | ⟨w, hp⟩
  · rw [encode_of_ends hp] at h
    cases failure <;> cases h
  · have hleft : w.cursor.remaining < maxAtomicUnit := fills_putMessage m _ hm _ w hp
    have hcapacity : w.cursor.capacity = capacity := ((advances_putMessage m _ msg).error hp).1
    rw [encode_of_suspended hp] at h
    cases h
    rw [WriteCursor.remaining, hcapacity, WriteCursor.size_written] at hleft
    omega

/-- A chunk is large enough for the next unit, whichever it is. -/
theorem ne_nil_of_encode (hm : msg.Ready)
    (h : (s.encode m msg m.config.encodeChunkSize).1 = .ok (bs, false)) : bs ≠ [] := by
  rintro rfl
  exact Nat.not_lt_of_le m.config.chunkSize_le (by simpa using capacity_lt_of_encode hm h)

end WriteSession

end WireCodec
