import WireCodec.Marshal.Marshaller
import WireCodec.Proofs.Decoding.Requests
import WireCodec.Proofs.Decoding.Scalars

/-!
# Values read back from their own bytes

A value that was written is read back, as it arrives, where its lengths and its nesting are within
the limits of the reader and no fraction of a second in it runs on over a leap second, and refused
where not.
-/

namespace WireCodec

open Decode

/-! ## Elements one after the other -/

theorem Encode.each_eq_ok {α : Type} {f : α → Except Error Bytes} {xs : List α} {body : Bytes}
    (h : each f xs = .ok body) :
    ∃ bytes : α → Bytes, (∀ x ∈ xs, f x = .ok (bytes x)) ∧ body = xs.flatMap bytes := by
  refine ⟨fun x => ((f x).toOption).getD [], ?_⟩
  induction xs generalizing body with
  | nil => cases h; exact ⟨nofun, rfl⟩
  | cons x xs ih =>
    simp only [each, bind_eq_ok, pure_eq_ok] at h
    obtain ⟨b, hb, bs, hbs, rfl⟩ := h
    obtain ⟨hall, rfl⟩ := ih hbs
    refine ⟨List.forall_mem_cons.mpr ⟨?_, hall⟩, ?_⟩ <;> simp [hb, Except.toOption]

theorem Encode.exists_each {α : Type} {f : α → Except Error Bytes} {xs : List α}
    (h : ∀ x ∈ xs, ∃ bs, f x = .ok bs) : ∃ body, each f xs = .ok body := by
  induction xs with
  | nil => exact ⟨_, rfl⟩
  | cons x xs ih =>
    rw [List.forall_mem_cons] at h
    obtain ⟨⟨bs, hbs⟩, htail⟩ := h
    obtain ⟨body, hbody⟩ := ih htail
    exact ⟨bs ++ body, by simp [each, hbs, hbody, bind, Except.bind, pure, Except.pure]⟩

theorem length_flatMap_ge {α : Type} {f : α → Bytes} {xs : List α} {n : Nat}
    (h : ∀ x ∈ xs, n ≤ (f x).length) : xs.length * n ≤ (xs.flatMap f).length := by
  induction xs with
  | nil => simp
  | cons x xs ih =>
    rw [List.forall_mem_cons] at h
    have htail := ih h.2
    rw [List.length_cons, Nat.succ_mul, List.flatMap_cons, List.length_append]
    omega

namespace DecodeLimits

variable {α β : Type} {n size : Nat} {f : Nat → Decode α} {body : Bytes} {y : α} {q : Prop}

theorem readsIf_count (l : DecodeLimits) (hn : n ≤ Encode.maxLength)
    (hbody : n * size ≤ body.length) (hf : ReadsIf q (f n) body y) :
    ReadsIf (n ≤ l.maxLength ∧ q) (l.count size >>= f) (LittleEndian.toBytes 4 n ++ body) y := by
  rw [count_bind]
  exact (readsIf_length hn _).bind (hf.expect hbody)

theorem readsIf_readWith {l : DecodeLimits} {nested : Request → Decode Value} {r : Request}
    {tag : Tag} {v : Value} (h : ReadsIf q (l.readTagged nested r tag) body v) :
    ReadsIf q (l.readWith nested r) (tag.toByte :: body) v := by
  refine .after (reads_byte _) ?_
  rw [Tag.ofByte?_toByte]
  exact h

/-- A number of elements, and then as many elements. -/
theorem readsIf_array {γ : Type} (l : DecodeLimits) {d : Decode α} {as : List γ} {bytes : γ → Bytes}
    {g : γ → α} {ok : γ → Prop} (hn : as.length ≤ Encode.maxLength)
    (hsize : ∀ a ∈ as, size ≤ (bytes a).length) (h : ∀ a ∈ as, ReadsIf (ok a) d (bytes a) (g a))
    (build : List α → β) :
    ReadsIf (as.length ≤ l.maxLength ∧ ∀ a ∈ as, ok a)
      (l.count size >>= fun n => many d n >>= fun ys => pure (build ys))
      (LittleEndian.toBytes 4 as.length ++ as.flatMap bytes) (build (as.map g)) :=
  l.readsIf_count hn (length_flatMap_ge hsize) ((readsIf_many h).bind_pure build)

end DecodeLimits

/-! ## Scalar arrays -/

namespace Scalar

/-- The bytes of an element of an array of scalars. -/
def encodeElement (s : Scalar) : Option s.Val → Except Error Bytes
  | some x => (s.tag.toByte :: ·) <$> s.encode x
  | none => .ok [Tag.null.toByte]

theorem encodeElements_eq (s : Scalar) : s.encodeElements = Encode.each s.encodeElement := by
  rw [encodeElements]
  congr 1

variable {s : Scalar} {x : Option s.Val} {bs : Bytes}

theorem one_le_length_encodeElement (h : s.encodeElement x = .ok bs) : 1 ≤ bs.length := by
  cases x with
  | none => cases h; exact Nat.le_refl 1
  | some x =>
    obtain ⟨content, -, rfl⟩ := Encode.map_eq_ok.mp h
    simp

theorem exists_encodeElement
    (h : ∀ y ∈ x, ∀ t ∈ s.texts y, (ModifiedUtf8.encode t).length ≤ Encode.maxLength) :
    ∃ bs, s.encodeElement x = .ok bs := by
  cases x with
  | none => exact ⟨_, rfl⟩
  | some x =>
    obtain ⟨content, hcontent⟩ := exists_encode (h x rfl)
    exact ⟨_, Encode.map_eq_ok.mpr ⟨content, hcontent, rfl⟩⟩

theorem readsIf_element (h : s.encodeElement x = .ok bs)
    (hx : ∀ y ∈ x, ∀ t ∈ s.types y, t.Told) :
    ReadsIf (∀ y ∈ x, s.Plain y) (DecodeLimits.scalarElement s) bs (x.map s.arrived) := by
  cases x with
  | none =>
    cases h
    exact ((reads_byte _).bind (.pure none)).readsIf.congr (by simp)
  | some x =>
    obtain ⟨content, hcontent, rfl⟩ := Encode.map_eq_ok.mp h
    have hnull : s.tag.toByte ≠ Tag.null.toByte := by cases s <;> decide
    refine .after (reads_byte _) ?_
    rw [if_neg hnull, if_pos rfl, map_eq_pure_bind]
    exact ((readsIf_decode hcontent (hx x rfl)).bind_pure some).congr (by simp)

end Scalar

/-! ## Values -/

theorem reads_int8 {code : Int} (hmin : -128 ≤ code) (hmax : code < 128) :
    Reads int8 [flavorByte code] code := by
  have hread := (reads_primitive (.int .w8 .signed) (BitVec.ofInt 8 code)).map
    fun x : BitVec 8 => x.toInt
  have hint : (BitVec.ofInt 8 code).toInt = code := by
    rw [BitVec.toInt_ofInt]
    exact Int.bmod_eq_of_le (by omega) (by omega)
  have hbyte : Primitive.encode (.int .w8 .signed) (BitVec.ofInt 8 code) = [flavorByte code] := by
    have hlow : (code % 256).toNat < 256 := by omega
    simp [Primitive.encode, Width.size, LittleEndian.toBytes, flavorByte, Nat.mod_eq_of_lt hlow]
  rwa [hint, hbyte] at hread

theorem reads_flavor (f : CollectionFlavor) : Reads int8 [flavorByte f.code] f.code := by
  apply reads_int8 <;> cases f <;> decide

theorem reads_mapFlavor (f : MapFlavor) : Reads int8 [flavorByte f.code] f.code := by
  apply reads_int8 <;> cases f <;> decide

namespace Value

theorem encodes_eq (xs : List Value) : encodes xs = Encode.each encode xs := by
  induction xs with
  | nil => rfl
  | cons x xs ih => rw [encodes, Encode.each, ih]

/-- The bytes of an entry: the key's, then the value's. -/
def encodeEntry (e : Value × Value) : Except Error Bytes := do
  let k ← encode e.1
  let v ← encode e.2
  return k ++ v

theorem encodeEntries_eq (es : List (Value × Value)) :
    encodeEntries es = Encode.each encodeEntry es := by
  induction es with
  | nil => rfl
  | cons e es ih =>
    simp only [encodeEntries, Encode.each, encodeEntry, ih, bind_assoc, pure_bind]

theorem exists_encodeEntry {e : Value × Value} (hk : ∃ bs, e.1.encode = .ok bs)
    (hv : ∃ bs, e.2.encode = .ok bs) : ∃ bs, encodeEntry e = .ok bs := by
  obtain ⟨k, hk⟩ := hk
  obtain ⟨v, hv⟩ := hv
  simp only [encodeEntry, Encode.bind_eq_ok, Encode.pure_eq_ok]
  exact ⟨_, k, hk, v, hv, rfl⟩

variable {v : Value} {bs : Bytes}

/-- The bytes of a value begin with its tag. -/
theorem eq_cons_of_encode (h : v.encode = .ok bs) : ∃ content, bs = v.tag.toByte :: content := by
  cases v with
  | null => cases h; exact ⟨_, rfl⟩
  | primitive k x => cases h; exact ⟨_, rfl⟩
  | primitiveArray k xs => obtain ⟨content, -, rfl⟩ := Encode.map_eq_ok.mp h; exact ⟨content, rfl⟩
  | scalar s x => obtain ⟨content, -, rfl⟩ := Encode.map_eq_ok.mp h; exact ⟨content, rfl⟩
  | scalarArray s xs => obtain ⟨content, -, rfl⟩ := Encode.map_eq_ok.mp h; exact ⟨content, rfl⟩
  | object o => obtain ⟨content, -, rfl⟩ := Encode.map_eq_ok.mp h; exact ⟨content, rfl⟩
  | _ =>
    simp only [encode, Encode.bind_eq_ok, Encode.pure_eq_ok] at h
    obtain ⟨_, -, _, -, rfl⟩ := h
    exact ⟨_, rfl⟩

theorem one_le_length_encode (h : v.encode = .ok bs) : 1 ≤ bs.length := by
  obtain ⟨content, rfl⟩ := eq_cons_of_encode h
  simp

theorem two_le_length_encodeEntry {e : Value × Value} (h : encodeEntry e = .ok bs) :
    2 ≤ bs.length := by
  simp only [encodeEntry, Encode.bind_eq_ok, Encode.pure_eq_ok] at h
  obtain ⟨k, hk, v, hv, rfl⟩ := h
  have := one_le_length_encode hk
  have := one_le_length_encode hv
  rw [List.length_append]
  omega

variable {l : DecodeLimits} {nested : Request → Decode Value} {ok : Value → Prop}

theorem readsIf_entry {e : Value × Value} (h : encodeEntry e = .ok bs)
    (hnested : ∀ w ∈ [e.1, e.2], ∀ b, w.encode = .ok b → ReadsIf (ok w) (nested .any) b w.arrived) :
    ReadsIf (ok e.1 ∧ ok e.2) (DecodeLimits.readTagged.entry nested .any) bs
      (e.1.arrived, e.2.arrived) := by
  simp only [encodeEntry, Encode.bind_eq_ok, Encode.pure_eq_ok] at h
  obtain ⟨k, hk, v, hv, rfl⟩ := h
  exact (hnested e.1 (by simp) k hk).bind ((hnested e.2 (by simp) v hv).bind_pure _)

/-- What holds of the bytes of a value after its tag where each of its parts is read back if it is
`ok`. -/
theorem readsIf_readTagged (h : v.encode = .ok (v.tag.toByte :: bs))
    (htold : ∀ t ∈ v.types, t.Told)
    (hparts : ∀ w ∈ v.parts, ∀ b, w.encode = .ok b → ReadsIf (ok w) (nested .any) b w.arrived) :
    ReadsIf (v.length ≤ l.maxLength ∧ v.Plain ∧ ∀ w ∈ v.parts, ok w)
      (l.readTagged nested .any v.tag) bs v.arrived := by
  cases v with
  | null =>
    cases h
    exact (ReadsIf.pure _).congr (by simp [length, parts, Plain, scalars])
  | primitive k x =>
    cases h
    have hread := (reads_primitive k.signed (k.toSigned x)).readsIf.bind_pure
      (Value.primitive k.signed)
    rw [k.encode_toSigned] at hread
    exact (ReadsIf.lift (Request.primitive_any k) hread).congr
      (by simp [length, parts, Plain, scalars])
  | primitiveArray k xs =>
    simp only [encode, Primitive.encodeArray, tag, Encode.map_eq_ok, Encode.bind_eq_ok,
      Encode.count_eq_ok, Encode.pure_eq_ok, List.cons.injEq, true_and] at h
    obtain ⟨_, ⟨_, ⟨hlength, rfl⟩, rfl⟩, rfl⟩ := h
    have helements (x : k.Val) (_ : x ∈ xs) :
        ReadsIf True (Decode.primitive k.signed) (k.encode x) (k.toSigned x) :=
      k.encode_toSigned x ▸ (reads_primitive k.signed (k.toSigned x)).readsIf
    have hsize (x : k.Val) (_ : x ∈ xs) : k.signed.size ≤ (k.encode x).length := by simp
    have hread := l.readsIf_array hlength hsize helements (Value.primitiveArray k.signed)
    exact (ReadsIf.lift (Request.primitiveArray_any k) hread).congr
      (by simp [length, parts, Plain, scalars])
  | scalar s x =>
    simp only [encode, tag, Encode.map_eq_ok] at h
    obtain ⟨content, hcontent, hbs⟩ := h
    cases hbs
    have hread := Scalar.readsIf_decode hcontent fun t ht =>
      htold t (mem_types_of_mem_scalars (List.mem_singleton_self _) ht)
    exact (hread.bind_pure _).congr (by simp [length, parts, Plain, scalars])
  | scalarArray s xs =>
    simp only [encode, Scalar.encodeArray, Scalar.encodeElements_eq, tag, Encode.map_eq_ok,
      Encode.bind_eq_ok, Encode.count_eq_ok, Encode.pure_eq_ok, List.cons.injEq, true_and] at h
    obtain ⟨_, ⟨_, ⟨hlength, rfl⟩, body, hbody, rfl⟩, rfl⟩ := h
    obtain ⟨bytes, hbytes, rfl⟩ := Encode.each_eq_ok hbody
    have hread := l.readsIf_array hlength
      (fun x hx => Scalar.one_le_length_encodeElement (hbytes x hx))
      (fun x hx => Scalar.readsIf_element (hbytes x hx) fun y hy t ht =>
        htold t (mem_types_of_mem_scalars (mem_scalars_scalarArray (hy ▸ hx)) ht))
      (Value.scalarArray s)
    exact hread.congr (by simp [length, parts, plain_scalarArray])
  | objectArray xs =>
    simp only [encode, encodes_eq, tag, Encode.bind_eq_ok, Encode.count_eq_ok, Encode.pure_eq_ok,
      List.cons_append, List.cons.injEq, true_and] at h
    obtain ⟨_, ⟨hlength, rfl⟩, body, hbody, rfl⟩ := h
    obtain ⟨bytes, hbytes, rfl⟩ := Encode.each_eq_ok hbody
    rw [arrived, arrivedAll_eq]
    exact (l.readsIf_array hlength (fun x hx => one_le_length_encode (hbytes x hx))
      (fun x hx => hparts x hx _ (hbytes x hx)) Value.objectArray).congr
        (and_congr_right' (and_iff_right (plain_of_scalars rfl)))
  | collection flavor xs =>
    simp only [encode, encodes_eq, tag, Encode.bind_eq_ok, Encode.count_eq_ok, Encode.pure_eq_ok,
      List.cons_append, List.cons.injEq, true_and] at h
    obtain ⟨_, ⟨hlength, rfl⟩, body, hbody, rfl⟩ := h
    obtain ⟨bytes, hbytes, rfl⟩ := Encode.each_eq_ok hbody
    rw [arrived, arrivedAll_eq]
    have hsize := length_flatMap_ge (fun x hx => one_le_length_encode (hbytes x hx))
    have hread := (readsIf_many fun x hx => hparts x hx _ (hbytes x hx)).bind_pure
      (Value.collection flavor)
    exact (l.readsIf_count hlength (Nat.le_succ_of_le hsize) (.after (reads_flavor flavor)
      (.lift flavor.ofCode_code hread))).congr
        (and_congr_right' (and_iff_right (plain_of_scalars rfl)))
  | map flavor entries =>
    simp only [encode, encodeEntries_eq, tag, Encode.bind_eq_ok, Encode.count_eq_ok,
      Encode.pure_eq_ok, List.cons_append, List.cons.injEq, true_and] at h
    obtain ⟨_, ⟨hlength, rfl⟩, body, hbody, rfl⟩ := h
    obtain ⟨bytes, hbytes, rfl⟩ := Encode.each_eq_ok hbody
    rw [arrived, arrivedEntries_eq]
    have hsize := length_flatMap_ge (fun e he => two_le_length_encodeEntry (hbytes e he))
    have hentries (e : Value × Value) (he : e ∈ entries) := readsIf_entry (hbytes e he)
      fun w hw => hparts w (List.mem_flatMap.mpr ⟨e, he, hw⟩)
    have hread := (readsIf_many hentries).bind_pure (Value.map flavor)
    exact (l.readsIf_count hlength (Nat.le_succ_of_le hsize) (.after (reads_mapFlavor flavor)
      (.lift flavor.ofCode_code hread))).congr (and_congr_right'
        ((and_iff_right (plain_of_scalars rfl)).trans forall_mem_parts_map))
  | mapEntry key value =>
    simp only [encode, tag, Encode.bind_eq_ok, Encode.pure_eq_ok, List.cons_append, List.cons.injEq,
      true_and] at h
    obtain ⟨k, hk, v, hv, rfl⟩ := h
    have hentry : encodeEntry (key, value) = .ok (k ++ v) := by
      simp only [encodeEntry, Encode.bind_eq_ok, Encode.pure_eq_ok]
      exact ⟨k, hk, v, hv, rfl⟩
    have hread := (readsIf_entry hentry hparts).bind_pure fun e => Value.mapEntry e.1 e.2
    exact hread.congr (by simp [length, parts, Plain, scalars])
  | object o =>
    simp only [encode, tag, Encode.map_eq_ok, List.cons.injEq, true_and, exists_eq_right] at h
    have htold : o.type.Told := htold _ (List.mem_singleton_self _)
    have hread := (StructuredObject.readsIf_decode h htold l.maxLength).bind_nil
      (f := fun o => liftM (l.checkObject .any o) >>= fun _ => pure (Value.object o))
      (Reads.pure (Value.object o))
    exact hread.congr (by simp [length, parts, Plain, scalars])

theorem readsIf_read (l : DecodeLimits) (levels : Nat) (h : v.encode = .ok bs)
    (htold : v.Everywhere fun w => ∀ t ∈ w.types, t.Told) :
    ReadsIf (v.Within l.maxLength levels ∧ v.Everywhere Plain) (l.read levels .any) bs
      v.arrived := by
  induction levels generalizing v bs with
  | zero =>
    obtain ⟨hhere, -⟩ := everywhere_iff.mp htold
    obtain ⟨content, rfl⟩ := eq_cons_of_encode h
    have hparts (w : Value) (_ : w ∈ v.parts) (b : Bytes) (_ : w.encode = .ok b) :
        ReadsIf False (throw (.valueNesting l.maxDepth)) b w.arrived :=
      ⟨nofun, fun _ more => ⟨_, rfl, .inr rfl⟩⟩
    refine (DecodeLimits.readsIf_readWith (readsIf_readTagged h hhere hparts)).congr ?_
    rw [within_zero, everywhere_iff]
    grind
  | succ levels ih =>
    obtain ⟨hhere, hinside⟩ := everywhere_iff.mp htold
    obtain ⟨content, rfl⟩ := eq_cons_of_encode h
    refine (DecodeLimits.readsIf_readWith (readsIf_readTagged h hhere fun w hw b hb =>
      ih hb (hinside w hw))).congr ?_
    rw [within_succ, everywhere_iff]
    grind

theorem exists_encode (h : v.Everywhere Encodable) : ∃ bs, v.encode = .ok bs := by
  induction v using induction_on_parts with
  | step v ih =>
    obtain ⟨⟨hlength, htexts⟩, hinside⟩ := everywhere_iff.mp h
    have ih (w : Value) (hw : w ∈ v.parts) := ih w hw (hinside w hw)
    have hcount := Encode.count_eq_ok.mpr ⟨hlength, rfl⟩
    cases v with
    | null => exact ⟨_, rfl⟩
    | primitive k x => exact ⟨_, rfl⟩
    | primitiveArray k xs =>
      simp only [encode, Primitive.encodeArray, Encode.map_eq_ok, Encode.bind_eq_ok,
        Encode.pure_eq_ok]
      exact ⟨_, _, ⟨_, hcount, rfl⟩, rfl⟩
    | scalar s x =>
      obtain ⟨content, hcontent⟩ := Scalar.exists_encode fun t ht =>
        htexts t (mem_texts_of_mem_scalars (List.mem_singleton_self _) ht)
      exact ⟨_, Encode.map_eq_ok.mpr ⟨content, hcontent, rfl⟩⟩
    | scalarArray s xs =>
      have helements (x : Option s.Val) (hx : x ∈ xs) : ∃ bs, s.encodeElement x = .ok bs :=
        Scalar.exists_encodeElement fun y hy t ht =>
          htexts t (mem_texts_of_mem_scalars (mem_scalars_scalarArray (hy ▸ hx)) ht)
      obtain ⟨body, hbody⟩ := Encode.exists_each helements
      simp only [encode, Scalar.encodeArray, Scalar.encodeElements_eq, Encode.map_eq_ok,
        Encode.bind_eq_ok, Encode.pure_eq_ok]
      exact ⟨_, _, ⟨_, hcount, body, hbody, rfl⟩, rfl⟩
    | objectArray xs =>
      obtain ⟨body, hbody⟩ := Encode.exists_each ih
      simp only [encode, encodes_eq, Encode.bind_eq_ok, Encode.pure_eq_ok]
      exact ⟨_, _, hcount, body, hbody, rfl⟩
    | collection flavor xs =>
      obtain ⟨body, hbody⟩ := Encode.exists_each ih
      simp only [encode, encodes_eq, Encode.bind_eq_ok, Encode.pure_eq_ok]
      exact ⟨_, _, hcount, body, hbody, rfl⟩
    | map flavor entries =>
      rw [forall_mem_parts_map] at ih
      obtain ⟨body, hbody⟩ := Encode.exists_each fun e he =>
        exists_encodeEntry (ih e he).1 (ih e he).2
      simp only [encode, encodeEntries_eq, Encode.bind_eq_ok, Encode.pure_eq_ok]
      exact ⟨_, _, hcount, body, hbody, rfl⟩
    | mapEntry key value =>
      obtain ⟨k, hk⟩ := ih key (by simp [parts])
      obtain ⟨v, hv⟩ := ih value (by simp [parts])
      simp only [encode, Encode.bind_eq_ok, Encode.pure_eq_ok]
      exact ⟨_, k, hk, v, hv, rfl⟩
    | object o =>
      obtain ⟨type, htype⟩ := TypeRef.exists_encode (t := o.type) htexts
      have hpayload := Encode.byteLength_eq_ok.mpr ⟨hlength, rfl⟩
      have henc : ∃ content, o.encode = .ok content := by
        simp only [StructuredObject.encode_eq, Encode.bind_eq_ok, Encode.pure_eq_ok]
        exact ⟨_, type, htype, _, hpayload, rfl⟩
      obtain ⟨content, hcontent⟩ := henc
      exact ⟨_, Encode.map_eq_ok.mpr ⟨content, hcontent, rfl⟩⟩

end Value

/-! ## Values on a marshaller -/

namespace Marshaller

theorem unmarshal_of_reads {m : Marshaller} {t : HostType} {bs : Bytes} {x : t.Val}
    (h : Reads (m.read t) bs x) : m.unmarshal t bs = .ok x := by
  have hread : (m.read t).runOn bs = .ok (x, []) := h.exact
  rw [unmarshal, hread]
  rfl

theorem unmarshal_of_refuses {m : Marshaller} {t : HostType} {bs : Bytes}
    (h : Refuses (m.read t) bs) :
    ∃ e, m.unmarshal t bs = .error e ∧ (e.kind = .serialization ∨ e.kind = .protocol) := by
  obtain ⟨e, he, hkind⟩ := h []
  rw [List.append_nil] at he
  have hread : (m.read t).runOn bs = .error e := he
  exact ⟨e, by rw [unmarshal, hread]; rfl, hkind⟩

theorem readsIf_read_told (m : Marshaller) {v : Value} {bs : Bytes} (h : v.encode = .ok bs)
    (htold : v.Everywhere fun w => ∀ t ∈ w.types, t.Told) :
    ReadsIf (v.Within m.config.maxArrayLength m.config.maxNestingDepth ∧ v.Everywhere Value.Plain)
      (m.read .value) bs v.arrived :=
  (Value.readsIf_read m.limits m.limits.maxDepth h htold).bind_pure id

theorem readsIf_read_value (m : Marshaller) {v : Value} {bs : Bytes} (h : v.encode = .ok bs)
    (hv : v.Everywhere Value.Faithful) :
    ReadsIf (v.Within m.config.maxArrayLength m.config.maxNestingDepth) (m.read .value) bs
      v.arrived :=
  (m.readsIf_read_told h fun w hw => (hv w hw).2).congr
    (iff_self_and.mpr fun _ w hw => (hv w hw).1)

/-- A value whose lengths can be told, and of which the wire tells everything, is written; what was
written is read back to its last byte, as it arrives, exactly where the limits allow it. -/
theorem unmarshalValue_marshalValue (m : Marshaller) {v : Value}
    (hencodable : v.Everywhere Value.Encodable) (hfaithful : v.Everywhere Value.Faithful) :
    ∃ bs, m.marshalValue v = .ok bs ∧
      (v.Within m.config.maxArrayLength m.config.maxNestingDepth →
        (m.read .value).runOn bs = .ok (v.arrived, []) ∧ m.unmarshalValue bs = .ok v.arrived) ∧
      (¬ v.Within m.config.maxArrayLength m.config.maxNestingDepth →
        ∃ e, m.unmarshalValue bs = .error e ∧ (e.kind = .serialization ∨ e.kind = .protocol)) := by
  obtain ⟨bs, hbs⟩ := Value.exists_encode hencodable
  have hread := m.readsIf_read_value hbs hfaithful
  exact ⟨bs, hbs, fun hwithin => ⟨(hread.1 hwithin).exact, unmarshal_of_reads (hread.1 hwithin)⟩,
    fun hover => unmarshal_of_refuses (hread.2 hover)⟩

open Value in
/-- An unsigned number beside a map with one key twice: the number is read back in signed form, and
nothing is read where a value may have one container around it only. -/
theorem unmarshalValue_marshalValue_entry :
    let o := (StructuredObject.ofName "T" [1, 2]).withSchema 7
    let v (s : Sign) := Value.mapEntry (.primitive (.int .w32 s) 0xFFFFFFFF)
      (.map .hashMap [(text "k", .scalarArray .text [some "é", none]), (text "k", .object o)])
    let m := ofConfig .default .empty
    let shallow := ofConfig { maxNestingDepth := 1 } .empty
    (v .unsigned).Everywhere Encodable ∧ (v .unsigned).Everywhere Faithful ∧
      (∃ bs, m.marshalValue (v .unsigned) = .ok bs ∧ m.unmarshalValue bs = .ok (v .signed)) ∧
      ∃ bs e, shallow.marshalValue (v .unsigned) = .ok bs ∧ shallow.unmarshalValue bs = .error e ∧
        (e.kind = .serialization ∨ e.kind = .protocol) := by
  intro o v m shallow
  have hencodable : (v .unsigned).Everywhere Encodable := by decide
  have hfaithful : (v .unsigned).Everywhere Faithful := by decide
  have hwithin : (v .unsigned).Within m.config.maxArrayLength m.config.maxNestingDepth := by decide
  have hover : ¬ (v .unsigned).Within shallow.config.maxArrayLength
      shallow.config.maxNestingDepth := by decide
  obtain ⟨bs, hbs, hread, -⟩ := m.unmarshalValue_marshalValue hencodable hfaithful
  obtain ⟨bs', hbs', -, hrefuse⟩ := shallow.unmarshalValue_marshalValue hencodable hfaithful
  obtain ⟨e, he⟩ := hrefuse hover
  exact ⟨hencodable, hfaithful, ⟨bs, hbs, (hread hwithin).2⟩, bs', e, hbs', he⟩

end Marshaller

end WireCodec
