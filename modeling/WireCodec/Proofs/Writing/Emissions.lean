import WireCodec.Frame.Pieces
import WireCodec.Proofs.Writing.Messages

/-!
Emissions one after the other, and the messages whose emission is all that there is to say about
writing them: those that are always ready and do not look at the room that is left.
-/

namespace WireCodec

namespace Emission

variable {a b : Emission} {e : Error}

@[simp] theorem bytes_whole (bs : Bytes) : (whole bs).bytes = bs := by
  simp [whole, bytes, Piece.bytes]

theorem andThen_empty (a : Emission) : a.andThen empty = a := by
  obtain ⟨pieces, _ | e⟩ := a
  · simp [andThen, empty]
  · rfl

theorem andThen_assoc (a b c : Emission) :
    (a.andThen b).andThen c = a.andThen (b.andThen c) := by
  obtain ⟨pieces, _ | e⟩ := a
  · obtain ⟨pieces', _ | e⟩ := b
    · simp [andThen]
    · rfl
  · rfl

theorem bytes_andThen (h : a.failure = none) : (a.andThen b).bytes = a.bytes ++ b.bytes := by
  simp [andThen, h, bytes]

theorem failure_andThen (h : a.failure = none) : (a.andThen b).failure = b.failure := by
  simp [andThen, h]

theorem andThen_of_failure (h : a.failure = some e) : a.andThen b = a := by
  simp [andThen, h]

theorem failure_eq_none_of_andThen (h : (a.andThen b).failure = none) :
    a.failure = none ∧ b.failure = none := by
  cases ha : a.failure with
  | none => exact ⟨rfl, failure_andThen ha ▸ h⟩
  | some e =>
    rw [andThen_of_failure ha, ha] at h
    cases h

end Emission

/-- A field that is always ready, and whose bytes do not depend on the room that is left. -/
structure Field.Plain (x : Field) : Prop where
  ready : x ≠ .stuck
  steady : ∀ readings, x ≠ .probe readings

/-- A message of such fields, at any depth. -/
inductive Message.Plain : Message → Prop
  | mk {type fields} (plain : ∀ x ∈ fields, Field.Plain x)
    (nested : ∀ x ∈ fields, ∀ m ∈ x.messages, m.Plain) : (Message.mk type fields).Plain

theorem Message.Plain.steady {msg : Message} (h : msg.Plain) : msg.Steady := by
  induction h with
  | mk plain _ ih => exact .mk (fun x hx => (plain x hx).steady) ih

end WireCodec
