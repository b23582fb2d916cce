import WireCodec.Proofs.RoundTrip.Typed

/-!
# Host values and their dynamic counterparts

There are two ways to write a value whose type has a fixed form: by the type, and as the dynamic
value that it counts as (`HostType.toValue?`), part by part. What reads the bytes cannot tell which
way was taken: they are the same, and so is the error where there are none.
-/

namespace WireCodec

namespace Marshaller

variable {m : Marshaller} {t : HostType} {x : t.Val} {v : Value}

theorem Reached.marshal_eq_encode (hm : m.Reached) (ht : t.Fixed) (hv : t.toValue? x = some v) :
    m.marshal t x = v.encode := by
  obtain ⟨tag, hmarshal⟩ := hm.marshal_fixed ht x
  rw [hmarshal, encodeAs, ht.encodeFixed_eq hv]

/-- A host value of a type with a fixed form is written exactly as its dynamic counterpart is. It
has one whenever it can be written. -/
theorem marshal_eq_marshalValue (hm : m.Reached) (ht : t.Fixed) (x : t.Val) :
    (∀ v, t.toValue? x = some v → m.marshal t x = m.marshalValue v) ∧
      ∀ bs, m.marshal t x = .ok bs → ∃ v, t.toValue? x = some v ∧ m.marshalValue v = .ok bs := by
  constructor
  · intro v hv
    exact hm.marshal_eq_encode ht hv
  · intro bs hbs
    obtain ⟨v, hv, hencode⟩ := hm.exists_toValue? ht hbs
    exact ⟨v, hv, hencode⟩

/-- A sorted map whose entries did not come in order is written as the dynamic map of the entries
in order. A list with a character of two units has no counterpart, and cannot be written. -/
theorem marshal_eq_marshalValue_map_and_chars :
    let m := ofConfig .default .empty
    let map := HostType.map true .text .value
    let entries : map.Val := [("b", .primitive (.int .w8 .unsigned) 200), ("a", .null)]
    let chars : (HostType.list .char).Val := ['a', 'é', '😀']
    m.Reached ∧
      m.marshal map entries = m.marshalValue (.map .treeMap
        [(.text "a", .null), (.text "b", .primitive (.int .w8 .unsigned) 200)]) ∧
      ∀ bs, m.marshal (.list .char) chars ≠ .ok bs := by
  intro m map entries chars
  have hm : m.Reached := .ofConfig .default .empty
  refine ⟨hm, ?_, ?_⟩
  · apply (marshal_eq_marshalValue hm (.textMap true) entries).1
    have hlater : KeyKind.text.compare "b" "a" = .gt := by decide
    simp [HostType.toValue?, KeyKind.iterateEntries, KeyKind.ascendingEntries, List.mergeSort,
      entries, hlater]
  · intro bs hbs
    obtain ⟨v, hv, -⟩ := (marshal_eq_marshalValue hm .chars chars).2 bs hbs
    cases hv

end Marshaller

end WireCodec
