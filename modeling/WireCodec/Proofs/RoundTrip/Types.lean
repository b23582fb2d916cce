import WireCodec.Proofs.Decoding.Contents
import WireCodec.Proofs.RoundTrip.Values

/-!
# Types that survive the wire

The id zero announces a name, so a type that goes by it is taken for another one. Everything that
is read refers to types that the wire can tell; so of the values that can be made, exactly those
come back as they were that keep off the reserved id.
-/

namespace WireCodec

open Decode

namespace Marshaller

open Value

/-- What is read of a dynamic value is legible, and nested as deep as the configuration allows. -/
theorem yieldsUpTo_read_value (m : Marshaller) (n : Nat) :
    YieldsUpTo n (fun v => v.Everywhere (Legible m.config.maxArrayLength n) ∧
      v.NestedWithin m.config.maxNestingDepth) (m.read .value) :=
  (DecodeLimits.yieldsUpTo_read m.limits.maxDepth .any).bind fun _ hv => .pure hv

theorem yields_read_value (m : Marshaller) : Yields (Everywhere Faithful) (m.read .value) :=
  fun _ _ _ h w hw => ((m.yieldsUpTo_read_value _ _ _ _ (Nat.le_refl _) h).2.1 w hw).faithful

/-- A value that was written comes back as it arrives, every constant and object in its place with
the type, the ordinal, the schema and the payload that it had, exactly if no type in it goes by the
id that announces a name. -/
theorem unmarshalValue_eq_arrived_iff (m : Marshaller) {v : Value} {bs : Bytes}
    (h : m.marshalValue v = .ok bs) (hplain : v.Everywhere Plain)
    (hagrees : v.Everywhere fun w => ∀ t ∈ w.types, t.Agrees)
    (hwithin : v.Within m.config.maxArrayLength m.config.maxNestingDepth) :
    m.unmarshalValue bs = .ok v.arrived ↔
      v.Everywhere fun w => ∀ t ∈ w.types, ¬ t.Reserved := by
  constructor
  · intro hback
    obtain ⟨⟨w, rest⟩, hread, rfl : w = v.arrived⟩ := Encode.map_eq_ok.mp hback
    have hfaithful := m.yields_read_value _ _ _ hread
    have htold : v.arrived.Everywhere fun w => ∀ t ∈ w.types, ¬ t.Reserved :=
      fun w hw t ht => ((hfaithful w hw).2 t ht).2
    exact (everywhere_arrived (fun w => by rw [types_arrived]) v).mp htold
  · intro htold
    have hread := m.readsIf_read_told h fun w hw t ht => ⟨hagrees w hw t ht, htold w hw t ht⟩
    exact unmarshal_of_reads (hread.1 ⟨hwithin, hplain⟩)

/-- By the id 7 a constant comes back. By the id 0 its ordinal is taken for the length of a name,
and the number after it for the ordinal. -/
theorem unmarshalValue_eq_arrived_iff_ids :
    let v (id : Int32) : Value :=
      .objectArray [.scalar .constant (.ofId id 0), .int32 1694498816]
    let bs (id : UInt8) : Bytes := [23, 2, 0, 0, 0, 28, id, 0, 0, 0, 0, 0, 0, 0, 3, 0, 0, 0, 101]
    let m := ofConfig .default .empty
    m.marshalValue (v 7) = .ok (bs 7) ∧ m.unmarshalValue (bs 7) = .ok (v 7) ∧
      m.marshalValue (v 0) = .ok (bs 0) ∧ m.unmarshalValue (bs 0) ≠ .ok (v 0) ∧
      m.unmarshalValue (bs 0) =
        .ok (.objectArray [.scalar .constant (.ofName "" 3), .null]) := by
  intro v bs m
  have hwritten : m.marshalValue (v 7) = .ok (bs 7) := rfl
  have hwritten₀ : m.marshalValue (v 0) = .ok (bs 0) := rfl
  have hback := m.unmarshalValue_eq_arrived_iff hwritten (by decide) (by decide) (by decide)
  have hback₀ := m.unmarshalValue_eq_arrived_iff hwritten₀ (by decide) (by decide) (by decide)
  exact ⟨hwritten, hback.mpr (by decide), hwritten₀, fun h => absurd (hback₀.mp h) (by decide), rfl⟩

end Marshaller

end WireCodec
