import Mathlib.Algebra.Ring.Nat
import WireCodec.Proofs.RoundTrip.Types

/-!
# What was read, written again

Bytes that are read need not be the bytes that are written: a text may come in groups longer than
needed, a decimal with padding, a truth value as any nonzero byte. Still all that is read is written
again, and what was written then is read back as the same value.
-/

namespace WireCodec

open Decode

namespace Value

variable {v : Value} {limit levels n : Nat}

theorem Legible.encodable (hv : v.Legible limit n) (hn : n < 2 ^ 30) : v.Encodable := by
  refine ⟨hv.count, fun s hs => ?_⟩
  have htext := hv.texts s hs
  rw [Encode.maxLength]
  omega

end Value

namespace DecodeLimits

open Value

/-- What is read for nothing in particular is no longer changed by travelling. -/
theorem yields_arrived (l : DecodeLimits) (levels : Nat) :
    Yields (fun v => v.arrived = v) (l.read levels .any) := by
  intro bs v rest h
  obtain ⟨w, hw, hunder⟩ := (l.refines_read levels (r := .any) bs v rest).mp h
  cases h.symm.trans hw
  have hsettled : v.Everywhere Value.Settled := fun w hw =>
    ((yieldsUpTo_read levels .any _ _ _ (Nat.le_refl _) h).2.1 w hw).settled
  rw [under_any_of_settled hsettled] at hunder
  exact Except.ok.inj hunder

end DecodeLimits

namespace Marshaller

open Value

theorem yields_arrived_value (m : Marshaller) : Yields (fun v => v.arrived = v) (m.read .value) :=
  (m.limits.yields_arrived m.limits.maxDepth).bind fun _ hv => .pure hv

/-- What is read from less than `2 ^ 30` bytes is written again, whatever these bytes were, and what
is then written is read to its end as exactly this value. -/
theorem unmarshalValue_marshalValue_of_unmarshalValue (m : Marshaller) {bs : Bytes} {v : Value}
    (hbs : bs.length < 2 ^ 30) (h : m.unmarshalValue bs = .ok v) :
    ∃ bs', m.marshalValue v = .ok bs' ∧ (m.read .value).runOn bs' = .ok (v, []) ∧
      m.unmarshalValue bs' = .ok v := by
  obtain ⟨⟨v, rest⟩, hread, rfl⟩ := Encode.map_eq_ok.mp h
  obtain ⟨-, hlegible, hnested⟩ :=
    m.yieldsUpTo_read_value bs.length bs v rest (Nat.le_refl _) hread
  have harrived : v.arrived = v := m.yields_arrived_value _ _ _ hread
  have hwithin : v.Within m.config.maxArrayLength m.config.maxNestingDepth :=
    ⟨fun w hw => (hlegible w hw).limited, hnested⟩
  obtain ⟨bs', hbs'⟩ := exists_encode fun w hw => (hlegible w hw).encodable hbs
  have hback : Reads (m.read .value) bs' v := by
    have hread := (m.readsIf_read_value hbs' fun w hw => (hlegible w hw).faithful).1 hwithin
    rwa [harrived] at hread
  exact ⟨bs', hbs', hback.exact, unmarshal_of_reads hback⟩

/-- A truth value of 7, a text in a group longer than needed, a padded decimal, a float that is no
number, and an object with flags that mean nothing: written again, they take other bytes. -/
theorem unmarshalValue_marshalValue_of_unmarshalValue_padded :
    let bs : Bytes := [23, 5, 0, 0, 0, 8, 7, 9, 2, 0, 0, 0, 0xC1, 0x81,
      30, 1, 0, 0, 0, 3, 0, 0, 0, 0x80, 0, 5, 5, 1, 0, 0xC0, 0x7F,
      103, 0xFF, 5, 0, 0, 0, 6, 0, 0, 0, 1, 0, 0, 0, 9]
    let v : Value := .objectArray [.primitive .bool true, .text "A", .scalar .decimal ⟨true, 5, 1⟩,
      .primitive .float 0x7FC00001, .object ((StructuredObject.ofId 5 [9]).withSchema 6)]
    let bs' : Bytes := [23, 5, 0, 0, 0, 8, 1, 9, 1, 0, 0, 0, 0x41,
      30, 1, 0, 0, 0, 1, 0, 0, 0, 0x85, 5, 1, 0, 0xC0, 0x7F,
      103, 1, 5, 0, 0, 0, 6, 0, 0, 0, 1, 0, 0, 0, 9]
    let m := ofConfig .default .empty
    bs.length < 2 ^ 30 ∧ m.unmarshalValue bs = .ok v ∧ m.marshalValue v = .ok bs' ∧
      m.unmarshalValue bs' = .ok v := by
  intro bs v bs' m
  have hbs : bs.length < 2 ^ 30 := by decide
  have hread : m.unmarshalValue bs = .ok v := rfl
  have hwritten : m.marshalValue v = .ok bs' := rfl
  obtain ⟨_, hbs', -, hback⟩ := m.unmarshalValue_marshalValue_of_unmarshalValue hbs hread
  cases hwritten.symm.trans hbs'
  exact ⟨hbs, hread, hwritten, hback⟩

end Marshaller

end WireCodec
