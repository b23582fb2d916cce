import WireCodec.Proofs.RoundTrip.Typed

/-!
# Instants read back

An instant is written whatever it is, but read back only where its nanoseconds are less than a
second: those that run on over a leap second are refused (`Marshaller.unmarshal_instants`). This is
so of an instant by itself, in an array, and anywhere inside a dynamic value.
-/

namespace WireCodec

open Decode

/-! ## Pairs of numbers on the wire -/

namespace Timestamp

variable {seconds : BitVec 64} {nanoseconds : Int32} {t : Timestamp}

/-- An instant is written as the two numbers that are its parts, and as no others. -/
theorem encode_eq_iff : t.encode = Encode.int64 seconds ++ Encode.int32 nanoseconds ↔
    t.seconds = seconds.toInt ∧ t.nanoseconds = nanoseconds.toInt := by
  obtain ⟨hbytes, hint⟩ := t.encode_eq
  rw [hbytes]
  constructor
  · intro h
    -- both sides are read as the numbers that were written
    have hseconds := reads_int64 (BitVec.ofInt 64 t.seconds)
      (Encode.int32 (Int32.ofNat t.nanoseconds))
    rw [h, reads_int64 seconds] at hseconds
    obtain ⟨hs, hrest⟩ := Prod.mk.inj (Except.ok.inj hseconds)
    have hnanos := (reads_int32 (Int32.ofNat t.nanoseconds)).exact
    rw [← hrest, (reads_int32 nanoseconds).exact] at hnanos
    obtain ⟨hn, -⟩ := Prod.mk.inj (Except.ok.inj hnanos)
    rw [hs, hn]
    exact ⟨t.toInt_seconds.symm, hint.symm⟩
  · rintro ⟨hs, hn⟩
    have hnanos : Int32.ofNat t.nanoseconds = nanoseconds :=
      Int32.toInt_inj.mp (hint.trans hn)
    rw [hs, BitVec.ofInt_toInt, hnanos]

/-- Of all pairs of numbers, those are read that an instant is written as whose nanoseconds are less
than a second. -/
theorem decode_pair (seconds : BitVec 64) (nanoseconds : Int32) (more : Bytes) :
    let pair := Encode.int64 seconds ++ Encode.int32 nanoseconds
    (∃ t : Timestamp, t.encode = pair ∧ t.nanoseconds < 1000000000 ∧
        decode (pair ++ more) = .ok (t, more)) ∨
      ((∀ t : Timestamp, t.encode = pair → 1000000000 ≤ t.nanoseconds) ∧
        decode (pair ++ more) = .error (.timestampRange seconds.toInt nanoseconds.toInt)) := by
  intro pair
  have hdecode := decode_append seconds nanoseconds more
  cases hwire : ofWire? seconds.toInt nanoseconds.toInt with
  | some t =>
    rw [hwire] at hdecode
    obtain ⟨hs, hn, hlt⟩ := ofWire?_eq_some_iff.mp hwire
    exact .inl ⟨t, encode_eq_iff.mpr ⟨hs, hn⟩, hlt, hdecode⟩
  | none =>
    rw [hwire] at hdecode
    refine .inr ⟨fun t ht => ?_, hdecode⟩
    obtain ⟨hs, hn⟩ := encode_eq_iff.mp ht
    refine Nat.le_of_not_lt fun hlt => ?_
    cases hwire.symm.trans (ofWire?_eq_some_iff.mpr ⟨hs, hn, hlt⟩)

end Timestamp

/-! ## Scalars for who asks for them -/

namespace DecodeLimits

variable {l : DecodeLimits} {bs : Bytes}

/-- Scalars and arrays of them are read alike for whatever request. -/
theorem read_scalars {tag : Tag} (htag : ∃ s, tag = .scalar s ∨ tag = .scalarArray s)
    (levels : Nat) (r : Request) (bs : Bytes) :
    l.read levels r (tag.toByte :: bs) = l.read levels .any (tag.toByte :: bs) := by
  have hwith (nested : Request → Decode Value) (r : Request) :
      l.readWith nested r (tag.toByte :: bs) = l.readTagged nested r tag bs := by
    refine (bind_ok (reads_byte tag.toByte bs)).trans ?_
    rw [Tag.ofByte?_toByte]
  obtain ⟨s, rfl | rfl⟩ := htag <;> cases levels <;> rw [read, read, hwith, hwith] <;> rfl

end DecodeLimits

namespace Marshaller

variable {m : Marshaller} {bs : Bytes}

/-- A scalar value, or an array of them, is read back by who asks for it where it is within the
limits and plain. -/
theorem readsIf_readAs_scalars {α : Type} {r : Request} {convert : Value → Except Error α}
    {v : Value} {y : α} (htag : ∃ s, v.tag = .scalar s ∨ v.tag = .scalarArray s)
    (h : v.encode = .ok bs) (htold : v.Everywhere fun w => ∀ t ∈ w.types, t.Told)
    (hy : convert v.arrived = .ok y) :
    ReadsIf (v.Within m.config.maxArrayLength m.config.maxNestingDepth ∧ v.Everywhere Value.Plain)
      (m.readAs r convert) bs y := by
  have hany := Value.readsIf_read m.limits m.limits.maxDepth h htold
  obtain ⟨content, rfl⟩ := Value.eq_cons_of_encode h
  have hread : ReadsIf (v.Within m.config.maxArrayLength m.config.maxNestingDepth ∧
      v.Everywhere Value.Plain) (m.limits.readValue r) (v.tag.toByte :: content) v.arrived := by
    refine ⟨fun hp more => ?_, fun hp more => ?_⟩ <;>
      rw [DecodeLimits.readValue, List.cons_append, DecodeLimits.read_scalars htag]
    · exact hany.1 hp more
    · exact hany.2 hp more
  refine hread.bind_nil ?_
  rw [hy]
  exact .pure y

/-- Bytes are unmarshalled as a value where `p` holds, and refused where not. -/
def UnmarshalsIf (m : Marshaller) (p : Prop) (t : HostType) (bs : Bytes) (x : t.Val) : Prop :=
  (p → m.unmarshal t bs = .ok x) ∧
    (¬ p → ∃ e, m.unmarshal t bs = .error e ∧ (e.kind = .serialization ∨ e.kind = .protocol))

theorem unmarshalsIf_of_readsIf {p q : Prop} {t : HostType} {x : t.Val}
    (h : ReadsIf q (m.read t) bs x) (hpq : p ↔ q) : m.UnmarshalsIf p t bs x :=
  ⟨fun hp => unmarshal_of_reads (h.1 (hpq.mp hp)),
    fun hp => unmarshal_of_refuses (h.2 (mt hpq.mpr hp))⟩

theorem Reached.unmarshalsIf_instant (hm : m.Reached) {t : Timestamp}
    (h : m.marshal (.scalar .timestamp) t = .ok bs) :
    m.UnmarshalsIf (t.nanoseconds < 1000000000) (.scalar .timestamp) bs t := by
  obtain ⟨v, hv, hencode⟩ := hm.exists_toValue? (.scalar .timestamp) h
  cases hv
  have hback : HostType.ofValue m.payloads (.scalar .timestamp)
      (Value.scalar .timestamp t).arrived = .ok t := rfl
  have hread := readsIf_readAs_scalars (m := m) (r := HostType.request (.scalar .timestamp))
    ⟨.timestamp, .inl rfl⟩ hencode (Value.everywhere_of_leaf nofun rfl) hback
  refine unmarshalsIf_of_readsIf hread ⟨fun hlt => ⟨?_, ?_⟩, fun ⟨_, hplain⟩ => ?_⟩
  · exact Value.within_of_leaf (Nat.zero_le _) rfl
  · exact Value.everywhere_of_leaf (List.forall_mem_singleton.mpr hlt) rfl
  · exact (Value.everywhere_iff.mp hplain).1 _ (List.mem_singleton_self _)

theorem Reached.unmarshalsIf_instants (hm : m.Reached) {ts : List Timestamp}
    (h : m.marshal (.list (.scalar .timestamp)) ts = .ok bs)
    (hlength : ts.length ≤ m.config.maxArrayLength) :
    m.UnmarshalsIf (∀ t ∈ ts, t.nanoseconds < 1000000000) (.list (.scalar .timestamp)) bs ts := by
  obtain ⟨v, hv, hencode⟩ := hm.exists_toValue? (.scalars .timestamp) h
  cases hv
  have htypes : (Value.scalarArray .timestamp (ts.map some)).types = [] := by
    simp [Value.types, Value.scalars, Scalar.types]
  have hback := HostType.ofValue_scalars m.payloads .timestamp ts
  rw [List.map_id'' (f := Scalar.arrived .timestamp) fun _ => rfl] at hback
  have hread := readsIf_readAs_scalars (m := m)
    (r := HostType.request (.list (.scalar .timestamp))) ⟨.timestamp, .inr rfl⟩ hencode
    (Value.everywhere_of_leaf (htypes ▸ List.forall_mem_nil _) rfl) hback
  have hplain : (∀ t ∈ ts, t.nanoseconds < 1000000000) ↔
      (Value.scalarArray .timestamp (ts.map some)).Plain := by
    rw [Value.plain_scalarArray]
    simp [Scalar.Plain]
  refine unmarshalsIf_of_readsIf hread (hplain.trans ⟨fun hplain => ⟨?_, ?_⟩, fun h => ?_⟩)
  · exact Value.within_of_leaf (by simpa [Value.length] using hlength) rfl
  · exact Value.everywhere_of_leaf hplain rfl
  · exact (Value.everywhere_iff.mp h.2).1

/-- The bytes of an instant are read back as the same instant where its nanoseconds are less than a
second, and refused where they run on over a leap second. So are those of an array of instants and
those of a dynamic value with instants anywhere inside; and of all pairs of numbers on the wire,
just those are read that an instant with less than a second of nanoseconds is written as. -/
theorem unmarshal_instants (hm : m.Reached) :
    (∀ (seconds : BitVec 64) (nanoseconds : Int32) (more : Bytes),
      let pair := Encode.int64 seconds ++ Encode.int32 nanoseconds
      (∃ t : Timestamp, t.encode = pair ∧ t.nanoseconds < 1000000000 ∧
          Timestamp.decode (pair ++ more) = .ok (t, more)) ∨
        ((∀ t : Timestamp, t.encode = pair → 1000000000 ≤ t.nanoseconds) ∧
          Timestamp.decode (pair ++ more) =
            .error (.timestampRange seconds.toInt nanoseconds.toInt))) ∧
    (∀ t : Timestamp, ∃ bs, m.marshal (.scalar .timestamp) t = .ok bs ∧
      m.UnmarshalsIf (t.nanoseconds < 1000000000) (.scalar .timestamp) bs t) ∧
    (∀ (ts : List Timestamp) (bs : Bytes), m.marshal (.list (.scalar .timestamp)) ts = .ok bs →
      ts.length ≤ m.config.maxArrayLength →
      m.UnmarshalsIf (∀ t ∈ ts, t.nanoseconds < 1000000000) (.list (.scalar .timestamp)) bs ts) ∧
    ∀ (v : Value) (bs : Bytes), m.marshalValue v = .ok bs →
      (v.Everywhere fun w => ∀ t ∈ w.types, t.Told) →
      v.Within m.config.maxArrayLength m.config.maxNestingDepth →
      m.UnmarshalsIf (v.Everywhere Value.Plain) .value bs v.arrived := by
  refine ⟨Timestamp.decode_pair, fun t => ?_, fun ts bs h => hm.unmarshalsIf_instants h,
    fun v bs h htold hwithin => ?_⟩
  · have hmarshal : m.marshal (.scalar .timestamp) t =
        .ok ((Tag.scalar .timestamp).toByte :: t.encode) := by
      obtain ⟨tag, htag⟩ := hm.marshal_fixed (.scalar .timestamp) t
      exact htag
    exact ⟨_, hmarshal, hm.unmarshalsIf_instant hmarshal⟩
  · exact unmarshalsIf_of_readsIf (m.readsIf_read_told h htold)
      ⟨fun hplain => ⟨hwithin, hplain⟩, And.right⟩

/-- The last second of a minute: half of it is read back, and what runs on over a leap second is
refused, by itself and as the value of a map. -/
theorem unmarshal_instants_leap :
    let m := ofConfig .default .empty
    let half : Timestamp := ⟨59, 500000000, by decide⟩
    let leap : Timestamp := ⟨59, 1500000000, by decide⟩
    let bs : Bytes := [33, 59, 0, 0, 0, 0, 0, 0, 0, 0, 47, 104, 89]
    let v (t : Timestamp) := Value.map .hashMap [(.text "at", .scalarArray .timestamp [none, t])]
    (∃ bs, m.marshal (.scalar .timestamp) half = .ok bs ∧
      m.unmarshal (.scalar .timestamp) bs = .ok half) ∧
    m.marshal (.scalar .timestamp) leap = .ok bs ∧
    (∃ e, m.unmarshal (.scalar .timestamp) bs = .error e) ∧
    (∃ bs, m.marshalValue (v half) = .ok bs ∧ m.unmarshalValue bs = .ok (v half)) ∧
    ∃ bs e, m.marshalValue (v leap) = .ok bs ∧ m.unmarshalValue bs = .error e := by
  intro m half leap bs v
  obtain ⟨-, hone, -, hvalue⟩ := unmarshal_instants (m := m) (.ofConfig .default .empty)
  obtain ⟨bs₁, hbs₁, hback, -⟩ := hone half
  obtain ⟨bs₂, hbs₂, -, hrefused⟩ := hone leap
  have hbytes : 33 :: leap.encode = bs := by decide
  have hleap : m.marshal (.scalar .timestamp) leap = .ok bs := congrArg Except.ok hbytes
  cases hbs₂.symm.trans hleap
  obtain ⟨e, he, -⟩ := hrefused (by decide)
  obtain ⟨hvback, -⟩ := hvalue (v half) _ rfl (by decide) (by decide)
  obtain ⟨-, hvrefused⟩ := hvalue (v leap) _ rfl (by decide) (by decide)
  obtain ⟨e', he', -⟩ := hvrefused (by decide)
  exact ⟨⟨bs₁, hbs₁, hback (by decide)⟩, hleap, ⟨e, he⟩, ⟨_, rfl, hvback (by decide)⟩,
    ⟨_, e', rfl, he'⟩⟩

end Marshaller

end WireCodec
