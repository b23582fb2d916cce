import WireCodec.Proofs.Decoding.Incremental
import WireCodec.Proofs.Decoding.Scalars

/-!
# What can be read

The decoders accept more than the encoders write: groups longer than needed, padded magnitudes, any
nonzero truth value. So what is known of a value that was read cannot come from the way that it was
written. Whatever the bytes were, the wire tells all of it, its lengths are within the limit, its
texts take at most twice the bytes of the input, and no decimal in it is a negative zero.
-/

namespace WireCodec

/-! ## Texts -/

namespace Utf16

theorem toNat_ofNat {n : Nat} (h : n < 0xD800 ∨ (0xDFFF < n ∧ n < 0x110000)) :
    (Char.ofNat n).toNat = n := by
  have hvalid : n.isValidChar := h
  rw [Char.ofNat, dif_pos hvalid]
  rfl

theorem encodeChar_charOfUnit {u : CodeUnit} (h : isSurrogate u = false) :
    encodeChar (charOfUnit u) = [u] := by
  have hu := u.isLt
  simp only [isSurrogate, Bool.and_eq_false_iff, decide_eq_false_iff_not] at h
  have hnat : (charOfUnit u).toNat = u.toNat := toNat_ofNat (by omega)
  rw [encodeChar, hnat, if_pos (by omega), BitVec.ofNat_toNat, BitVec.setWidth_eq]

theorem encodeChar_charOfPair {u v : CodeUnit} (hu : isHigh u = true) (hv : isLow v = true) :
    encodeChar (charOfPair u v) = [u, v] := by
  simp only [isHigh, isLow, Bool.and_eq_true, decide_eq_true_eq] at hu hv
  have hnat : (charOfPair u v).toNat =
      0x10000 + (u.toNat - 0xD800) * 0x400 + (v.toNat - 0xDC00) := toNat_ofNat (by omega)
  have hhigh : 0xD800 + ((charOfPair u v).toNat - 0x10000) / 0x400 = u.toNat := by omega
  have hlow : 0xDC00 + ((charOfPair u v).toNat - 0x10000) % 0x400 = v.toNat := by omega
  rw [encodeChar, if_neg (by omega)]
  simp [hhigh, hlow]

/-- Units that stand for characters are the units of these characters. -/
theorem encode_of_decode {us : List CodeUnit} {cs : List Char} (h : decode us = some cs) :
    encode cs = us := by
  induction us using decode.induct generalizing cs with
  | case1 => cases h; rfl
  | case2 u hu => simp [decode, hu] at h
  | case3 u hu =>
    simp only [decode, hu] at h
    cases h
    simpa [encode] using encodeChar_charOfUnit (by simpa using hu)
  | case4 u v rest hu hv ih =>
    simp only [decode, hu, hv, if_true, Option.map_eq_some_iff] at h
    obtain ⟨cs, hcs, rfl⟩ := h
    have hrest : cs.flatMap encodeChar = rest := ih hcs
    rw [encode, List.flatMap_cons, encodeChar_charOfPair hu hv, hrest]
    rfl
  | case5 u v rest hu hv => simp [decode, hu, hv] at h
  | case6 u v rest hu hv => simp [decode, hu, hv] at h
  | case7 u v rest hu hv ih =>
    have hplain : isSurrogate u = false := by
      simp only [isHigh, isLow, isSurrogate, Bool.and_eq_true, decide_eq_true_eq,
        Bool.and_eq_false_iff, decide_eq_false_iff_not] at hu hv ⊢
      omega
    rw [decode_unit hplain, Option.map_eq_some_iff] at h
    obtain ⟨cs, hcs, rfl⟩ := h
    have hrest : cs.flatMap encodeChar = v :: rest := ih hcs
    rw [encode, List.flatMap_cons, encodeChar_charOfUnit hplain, hrest]
    rfl

end Utf16

namespace ModifiedUtf8

open Utf16 (CodeUnit)

theorem length_encodeUnit_le (u : CodeUnit) : (encodeUnit u).length ≤ 3 := by
  rw [encodeUnit]
  split
  · simp
  · split <;> simp

theorem length_encodeUnit_ofNat_le {n : Nat} (h : n < 0x80) :
    (encodeUnit (BitVec.ofNat 16 n)).length ≤ 2 := by
  have hnat : (BitVec.ofNat 16 n).toNat = n := by
    rw [BitVec.toNat_ofNat]
    omega
  rw [encodeUnit, hnat]
  split
  · simp
  · rw [if_pos (by omega)]
    simp

/-- No unit takes more than twice the bytes of the group that it was read from: zero, read from one
byte, is written as two, and a group that was longer than needed is written shorter. -/
theorem length_flatMap_encodeUnit_le {offset : Nat} {bs : Bytes} {us : List CodeUnit}
    (h : decodeUnits offset bs = .ok us) : (us.flatMap encodeUnit).length ≤ 2 * bs.length := by
  have hgroup {u : CodeUnit} {us : List CodeUnit} {k n : Nat}
      (hu : (encodeUnit u).length ≤ 2 * k) (hus : (us.flatMap encodeUnit).length ≤ 2 * n) :
      ((u :: us).flatMap encodeUnit).length ≤ 2 * (n + k) := by
    rw [List.flatMap_cons, List.length_append]
    omega
  fun_induction decodeUnits offset bs generalizing us with
  | case1 => cases h; exact Nat.zero_le _
  | case2 _ _ _ _ hn =>
    rename_i ih
    simp only [Encode.bind_eq_ok, Encode.pure_eq_ok] at h
    obtain ⟨us, hus, rfl⟩ := h
    exact hgroup (length_encodeUnit_ofNat_le hn) (ih hus)
  | case4 =>
    rename_i ih
    simp only [Encode.bind_eq_ok, Encode.pure_eq_ok] at h
    obtain ⟨x, -, us, hus, rfl⟩ := h
    exact hgroup (k := 2) (Nat.le_succ_of_le (length_encodeUnit_le _)) (ih hus)
  | case6 _ _ _ _ _ _ _ cs =>
    rename_i ih
    obtain ⟨x, -, h⟩ := Encode.bind_eq_ok.mp h
    cases cs with
    | nil => cases h
    | cons d ds =>
      simp only [Encode.bind_eq_ok, Encode.pure_eq_ok] at h
      obtain ⟨y, -, us, hus, rfl⟩ := h
      exact hgroup (k := 3) (Nat.le_trans (length_encodeUnit_le _) (by decide)) (ih hus)
  | _ => cases h

theorem length_encode_le {bs : Bytes} {s : String} (h : decode bs = .ok s) :
    (encode s).length ≤ 2 * bs.length := by
  obtain ⟨us, hus, h⟩ := Encode.bind_eq_ok.mp h
  cases hcs : Utf16.decode us with
  | none => rw [hcs] at h; cases h
  | some cs =>
    rw [hcs] at h
    cases h
    rw [encode, String.toList_ofList, Utf16.encode_of_decode hcs]
    exact length_flatMap_encodeUnit_le hus

end ModifiedUtf8

/-! ## What is read from so many bytes -/

namespace Decode

variable {α β : Type} {d : Decode α} {f : α → Decode β} {P : α → Prop} {Q : β → Prop} {x : α}
  {k n : Nat}

/-- All that a decoder reads from at most `n` bytes has a property. -/
def YieldsUpTo (n : Nat) (P : α → Prop) (d : Decode α) : Prop :=
  ∀ bs x rest, bs.length ≤ n → d bs = .ok (x, rest) → rest.length ≤ n ∧ P x

namespace YieldsUpTo

theorem pure (h : P x) : YieldsUpTo n P (Pure.pure x) := by
  intro bs y rest hbs hok
  cases hok
  exact ⟨hbs, h⟩

theorem throw (P : α → Prop) (e : Error) : YieldsUpTo n P (MonadExcept.throw e : Decode α) := nofun

theorem any (hd : Incremental k d) : YieldsUpTo n (fun _ => True) d := by
  intro bs x rest hbs hok
  obtain ⟨used, rfl, -⟩ := hd.reads hok
  rw [List.length_append] at hbs
  exact ⟨by omega, trivial⟩

theorem bind (hd : YieldsUpTo n P d) (hf : ∀ x, P x → YieldsUpTo n Q (f x)) :
    YieldsUpTo n Q (d >>= f) := by
  intro bs y rest hbs hok
  obtain ⟨x, mid, hx, hy⟩ := ok_of_bind hok
  obtain ⟨hmid, hP⟩ := hd _ _ _ hbs hx
  exact hf x hP _ _ _ hmid hy

theorem after (hd : Incremental k d) (hf : ∀ x, YieldsUpTo n Q (f x)) : YieldsUpTo n Q (d >>= f) :=
  (any hd).bind fun x _ => hf x

theorem map {g : α → β} (hd : YieldsUpTo n P d) (hg : ∀ x, P x → Q (g x)) :
    YieldsUpTo n Q (g <$> d) := by
  rw [map_eq_pure_bind]
  exact hd.bind fun x hx => .pure (hg x hx)

theorem take (k : Nat) : YieldsUpTo n (fun bs => bs.length = k ∧ k ≤ n) (take k) := by
  intro bs x rest hbs hok
  rw [Decode.take, Bytes.shorterThan_eq] at hok
  split at hok
  case isTrue => cases hok
  case isFalse hk =>
    rw [List.splitAt_eq] at hok
    cases hok
    have hk : k ≤ bs.length := by simpa using hk
    refine ⟨?_, List.length_take_of_le hk, Nat.le_trans hk hbs⟩
    rw [List.length_drop]
    omega

theorem expect : YieldsUpTo n (fun _ => True) (expect k) := by
  intro bs x rest hbs hok
  rw [Decode.expect] at hok
  split at hok <;> cases hok
  exact ⟨hbs, trivial⟩

theorem many (hd : YieldsUpTo n P d) (k : Nat) :
    YieldsUpTo n (fun xs => xs.length = k ∧ ∀ x ∈ xs, P x) (many d k) := by
  induction k with
  | zero => exact .pure ⟨rfl, nofun⟩
  | succ k ih =>
    rw [many_succ]
    refine hd.bind fun x hx => ih.bind fun xs hxs => .pure ⟨?_, ?_⟩
    · rw [List.length_cons, hxs.1]
    · exact List.forall_mem_cons.mpr ⟨hx, hxs.2⟩

end YieldsUpTo

/-! ## Lengths and texts -/

theorem yieldsUpTo_size : YieldsUpTo n (· ≤ Encode.maxLength) size := by
  refine .after incremental_int32 fun k => ?_
  dsimp only
  split
  · exact .bind (.throw (fun _ => False) _) nofun
  · refine .pure ?_
    have := k.toInt_lt
    rw [Encode.maxLength]
    omega

theorem yieldsUpTo_length (limit : Nat) :
    YieldsUpTo n (fun k => k ≤ limit ∧ k ≤ Encode.maxLength) (length limit) := by
  refine yieldsUpTo_size.bind fun k hk => ?_
  dsimp only
  split
  case isTrue => exact .bind (.throw (fun _ => False) _) nofun
  case isFalse hlimit => exact .pure ⟨Nat.le_of_not_lt hlimit, hk⟩

theorem yieldsUpTo_characters (k : Nat) :
    YieldsUpTo n (fun s => (ModifiedUtf8.encode s).length ≤ 2 * n) (take k >>= fun bs =>
      match ModifiedUtf8.decode bs with
      | .ok s => Pure.pure s
      | .error e => throw e) := by
  refine (YieldsUpTo.take k).bind fun bs hbs => ?_
  split
  case h_1 s hs =>
    have hs := ModifiedUtf8.length_encode_le hs
    exact .pure (by omega)
  case h_2 e he => exact .throw _ e

theorem yieldsUpTo_text :
    YieldsUpTo n (fun s => (ModifiedUtf8.encode s).length ≤ 2 * n) text := by
  refine .after incremental_int32 fun k => ?_
  dsimp only
  split
  · exact .bind (.throw (fun _ => False) _) nofun
  · exact yieldsUpTo_characters _

end Decode

open Decode

/-! ## Scalars and structured objects -/

/-- The wire tells the type, and its name takes at most so many bytes. -/
structure TypeRef.Legible (n : Nat) (t : TypeRef) : Prop where
  told : t.Told
  name : ∀ name ∈ t.2.toList, (ModifiedUtf8.encode name).length ≤ 2 * n

variable {n : Nat}

theorem TypeRef.yieldsUpTo_decode : YieldsUpTo n (TypeRef.Legible n) TypeRef.decode := by
  refine .after incremental_int32 fun id => ?_
  split
  case isTrue =>
    refine yieldsUpTo_text.map fun name hname => ⟨⟨?_, nofun⟩, ?_⟩
    · simp [Agrees]
    · simpa using hname
  case isFalse hid => exact .pure ⟨⟨nofun, fun h => hid h.1⟩, nofun⟩

theorem EnumConstant.yieldsUpTo_decode :
    YieldsUpTo n (fun c => c.type.Legible n) EnumConstant.decode := by
  rw [decode_eq]
  exact TypeRef.yieldsUpTo_decode.bind fun t ht => .after incremental_int32 fun ordinal => .pure ht

theorem StructuredObject.yieldsUpTo_decode (limit : Nat) :
    YieldsUpTo n (fun o => o.type.Legible n ∧ o.payload.length ≤ limit ∧
      o.payload.length ≤ Encode.maxLength) (StructuredObject.decode limit) := by
  rw [decode_eq]
  refine .after incremental_byte fun flags => TypeRef.yieldsUpTo_decode.bind fun t ht => ?_
  refine .after (k := 0) ?_ fun schemaId => (yieldsUpTo_length limit).bind fun k hk =>
    (YieldsUpTo.take k).bind fun payload hpayload => .pure ⟨ht, ?_⟩
  · split
    · exact (incremental_int32.map _).mono (Nat.zero_le _)
    · exact .pure none
  · rwa [hpayload.1]

theorem Decimal.mantissa_of_ofMantissa? {m : Int} {scale : Nat} {d : Decimal}
    (h : ofMantissa? m scale = some d) : d.mantissa = m ∧ d.scale = scale := by
  rw [ofMantissa?, Option.dite_none_right_eq_some] at h
  obtain ⟨hrange, h⟩ := h
  cases h
  refine ⟨?_, rfl⟩
  simp only [mantissa, BitVec.toNat_ofNatLT, decide_eq_true_eq]
  split <;> omega

theorem Decimal.arrived_of_ofMantissa? {m : Int} {scale : Nat} {d : Decimal}
    (h : ofMantissa? m scale = some d) : d.arrived = d := by
  obtain ⟨hmantissa, hscale⟩ := mantissa_of_ofMantissa? h
  have hself := ofMantissa?_mantissa d
  rw [hmantissa, hscale, h] at hself
  exact (Option.some.inj hself).symm

theorem Decimal.arrived_of_ofWire {scale : Int} {bs : Bytes} {d : Decimal}
    (h : ofWire scale bs = .ok d) : d.arrived = d := by
  cases bs with
  | nil => cases h
  | cons first rest =>
    obtain ⟨magnitude, -, h⟩ := Encode.bind_eq_ok.mp h
    by_cases hscale : scale < 0
    · simp only [if_pos hscale] at h
      cases h
    by_cases hroom : 1 <<< 127 ≤ magnitude
    · simp only [if_neg hscale, if_pos hroom] at h
      cases h
    simp only [if_neg hscale, if_neg hroom] at h
    generalize (if first.toNat < 0x80 then (magnitude : Int) else -magnitude) = m at h
    cases hd : ofMantissa? m scale.toNat with
    | some d' =>
      rw [hd] at h
      cases h
      exact arrived_of_ofMantissa? hd
    | none =>
      rw [hd] at h
      cases h

/-- No decimal that is read is a negative zero. -/
theorem Decimal.yieldsUpTo_decode : YieldsUpTo n (fun d => d.arrived = d) Decimal.decode := by
  refine .after incremental_int32 fun scale => .after incremental_size fun k =>
    .after (Incremental.take k) fun bs => ?_
  split
  case h_1 d hd =>
    exact .pure (arrived_of_ofWire hd)
  case h_2 e he => exact .throw _ e

theorem Timestamp.yieldsUpTo_decode :
    YieldsUpTo n (fun t => t.nanoseconds < 1000000000) Timestamp.decode := by
  refine .after incremental_int64 fun seconds => .after incremental_int32 fun nanoseconds => ?_
  split
  case h_1 t ht => exact .pure (ofWire?_eq_some_iff.mp ht).2.2
  case h_2 => exact .throw _ _

/-- The wire tells all of a scalar, in which there is no negative zero and no longer text. -/
structure Scalar.Legible (n : Nat) (s : Scalar) (x : s.Val) : Prop where
  faithful : s.Faithful x
  arrived : s.arrived x = x
  texts : ∀ t ∈ s.texts x, (ModifiedUtf8.encode t).length ≤ 2 * n

theorem Scalar.yieldsUpTo_decode (s : Scalar) : YieldsUpTo n (s.Legible n) s.decode := by
  cases s with
  | text =>
    intro bs x rest hbs h
    obtain ⟨hrest, htext⟩ := yieldsUpTo_text _ _ _ hbs h
    exact ⟨hrest, ⟨trivial, nofun⟩, rfl, List.forall_mem_singleton.mpr htext⟩
  | uuid =>
    intro bs x rest hbs h
    obtain ⟨hrest, -⟩ := YieldsUpTo.any (Scalar.incremental_decode .uuid) _ _ _ hbs h
    exact ⟨hrest, ⟨trivial, nofun⟩, rfl, nofun⟩
  | decimal =>
    intro bs x rest hbs h
    obtain ⟨hrest, harrived⟩ := Decimal.yieldsUpTo_decode _ _ _ hbs h
    exact ⟨hrest, ⟨trivial, nofun⟩, harrived, nofun⟩
  | timestamp =>
    intro bs x rest hbs h
    obtain ⟨hrest, hplain⟩ := Timestamp.yieldsUpTo_decode _ _ _ hbs h
    exact ⟨hrest, ⟨hplain, nofun⟩, rfl, nofun⟩
  | constant =>
    intro bs x rest hbs h
    obtain ⟨hrest, htype⟩ := EnumConstant.yieldsUpTo_decode _ _ _ hbs h
    exact ⟨hrest, ⟨trivial, List.forall_mem_singleton.mpr htype.told⟩, rfl, htype.name⟩

/-! ## Values -/

namespace Value

/-- The wire tells all of a value, which has lengths up to a limit, texts of at most so many bytes,
and no negative zero; its parts do not count. -/
structure Legible (limit n : Nat) (v : Value) : Prop where
  faithful : v.Faithful
  settled : v.Settled
  texts : ∀ s ∈ v.texts, (ModifiedUtf8.encode s).length ≤ 2 * n
  limited : v.length ≤ limit
  count : v.length ≤ Encode.maxLength

variable {v : Value} {limit : Nat}

theorem legible_of_scalars (htypes : v.types = v.scalars.flatMap fun x => x.1.types x.2)
    (htexts : v.texts = v.scalars.flatMap fun x => x.1.texts x.2)
    (h : ∀ x ∈ v.scalars, x.1.Legible n x.2)
    (hlength : v.length ≤ limit ∧ v.length ≤ Encode.maxLength) : v.Legible limit n where
  faithful := faithful_of_scalars htypes fun x hx => (h x hx).faithful
  settled x hx := (h x hx).arrived
  texts s hs := by
    rw [htexts] at hs
    obtain ⟨x, hx, hs⟩ := List.mem_flatMap.mp hs
    exact (h x hx).texts s hs
  limited := hlength.1
  count := hlength.2

theorem legible_scalarArray {s : Scalar} {xs : List (Option s.Val)}
    (h : ∀ x ∈ xs, ∀ y ∈ x, s.Legible n y)
    (hlength : xs.length ≤ limit ∧ xs.length ≤ Encode.maxLength) :
    (scalarArray s xs).Legible limit n := by
  refine legible_of_scalars rfl rfl (fun x hx => ?_) hlength
  simp only [scalars, List.mem_flatMap, Option.mem_toList, Option.map_eq_some_iff] at hx
  obtain ⟨y, hy, z, hz, rfl⟩ := hx
  exact h y hy z hz

theorem legible_object {o : StructuredObject} (htype : o.type.Legible n)
    (hlength : o.payload.length ≤ limit ∧ o.payload.length ≤ Encode.maxLength) :
    (object o).Legible limit n where
  faithful := faithful_object htype.told
  settled := by simp [Settled, scalars]
  texts := htype.name
  limited := hlength.1
  count := hlength.2

end Value

namespace DecodeLimits

open Value

variable {l : DecodeLimits} {nested : Request → Decode Value} {P : Value → Prop}

theorem yieldsUpTo_count (size : Nat) :
    YieldsUpTo n (fun k => k ≤ l.maxLength ∧ k ≤ Encode.maxLength) (l.count size) :=
  (yieldsUpTo_length _).bind fun _ hk => YieldsUpTo.expect.bind fun _ _ => .pure hk

theorem yieldsUpTo_scalarElement (s : Scalar) :
    YieldsUpTo n (fun x => ∀ y ∈ x, s.Legible n y) (scalarElement s) := by
  refine .after incremental_byte fun tag => ?_
  split
  · exact .pure nofun
  · split
    · exact s.yieldsUpTo_decode.map fun x hx y hy => Option.mem_some.mp hy ▸ hx
    · exact .throw _ _

theorem yieldsUpTo_entry (hnested : ∀ r, YieldsUpTo n P (nested r)) (r : Request) :
    YieldsUpTo n (fun e => P e.1 ∧ P e.2) (readTagged.entry nested r) :=
  (hnested r.key).bind fun _ hk => (hnested r.value).bind fun _ hv => .pure ⟨hk, hv⟩

/-- What is read after a tag is legible, and its parts are what the nested readers read. -/
theorem yieldsUpTo_readTagged (hnested : ∀ r, YieldsUpTo n P (nested r)) (r : Request) (tag : Tag) :
    YieldsUpTo n (fun v => v.Legible l.maxLength n ∧ ∀ w ∈ v.parts, P w)
      (l.readTagged nested r tag) := by
  -- all but scalars and objects are legible by their length alone
  have hleaf {v : Value} (htypes : v.types = []) (htexts : v.texts = []) (hscalars : v.scalars = [])
      (hlength : v.length ≤ l.maxLength ∧ v.length ≤ Encode.maxLength) :
      v.Legible l.maxLength n :=
    legible_of_scalars (by simp [*]) (by simp [*]) (by simp [*]) hlength
  have hzero : 0 ≤ l.maxLength ∧ 0 ≤ Encode.maxLength := ⟨Nat.zero_le _, Nat.zero_le _⟩
  cases tag with
  | null => exact .pure ⟨hleaf rfl rfl rfl hzero, nofun⟩
  | one f =>
    exact .after (.lift _) fun k => .after (incremental_primitive k) fun x =>
      .pure ⟨hleaf rfl rfl rfl hzero, nofun⟩
  | array f =>
    refine .after (.lift _) fun k => (yieldsUpTo_count _).bind fun m hm =>
      ((YieldsUpTo.any (incremental_primitive k)).many m).bind fun xs hxs => .pure ⟨?_, nofun⟩
    exact hleaf rfl rfl rfl (by rwa [Value.length, hxs.1])
  | scalar s =>
    refine s.yieldsUpTo_decode.bind fun x hx => .pure ⟨?_, nofun⟩
    exact legible_of_scalars rfl rfl (List.forall_mem_singleton.mpr hx) hzero
  | scalarArray s =>
    refine (yieldsUpTo_count _).bind fun m hm =>
      ((yieldsUpTo_scalarElement s).many m).bind fun xs hxs => .pure ⟨?_, nofun⟩
    exact legible_scalarArray hxs.2 (by rwa [hxs.1])
  | objectArray =>
    refine (yieldsUpTo_count _).bind fun m hm =>
      ((hnested _).many m).bind fun xs hxs => .pure ⟨?_, hxs.2⟩
    exact hleaf rfl rfl rfl (by rwa [Value.length, hxs.1])
  | collection =>
    refine (yieldsUpTo_count _).bind fun m hm => .after incremental_int8 fun code =>
      .after (.lift _) fun flavor => ((hnested _).many m).bind fun xs hxs => .pure ⟨?_, hxs.2⟩
    exact hleaf rfl rfl rfl (by rwa [Value.length, hxs.1])
  | map =>
    refine (yieldsUpTo_count _).bind fun m hm => .after incremental_int8 fun code =>
      .after (.lift _) fun flavor => ((yieldsUpTo_entry hnested r).many m).bind fun es hes =>
        .pure ⟨?_, forall_mem_parts_map.mpr hes.2⟩
    exact hleaf rfl rfl rfl (by rwa [Value.length, hes.1])
  | mapEntry =>
    refine (yieldsUpTo_entry hnested r).bind fun e he => .pure ⟨hleaf rfl rfl rfl hzero, ?_⟩
    exact List.forall_mem_cons.mpr ⟨he.1, List.forall_mem_singleton.mpr he.2⟩
  | object =>
    refine (StructuredObject.yieldsUpTo_decode _).bind fun o ho => .after (.lift _) fun _ =>
      .pure ⟨legible_object ho.1 ho.2, nofun⟩

theorem yieldsUpTo_readWith (hnested : ∀ r, YieldsUpTo n P (nested r)) (r : Request) :
    YieldsUpTo n (fun v => v.Legible l.maxLength n ∧ ∀ w ∈ v.parts, P w)
      (l.readWith nested r) := by
  refine .after incremental_byte fun b => ?_
  split
  · exact yieldsUpTo_readTagged hnested r _
  · exact .throw _ _

/-- What is read is legible, whatever was asked for, and nested as deep as the levels allow. -/
theorem yieldsUpTo_read (levels : Nat) (r : Request) :
    YieldsUpTo n (fun v => v.Everywhere (Legible l.maxLength n) ∧ v.NestedWithin levels)
      (l.read levels r) := by
  induction levels generalizing r with
  | zero =>
    intro bs v rest hbs h
    obtain ⟨hrest, hv, hparts⟩ :=
      yieldsUpTo_readWith (fun _ => .throw (fun _ => False) _) r bs v rest hbs h
    have hnone : v.parts = [] := List.eq_nil_iff_forall_not_mem.mpr hparts
    exact ⟨hrest, everywhere_of_leaf hv hnone, by simp [NestedWithin, hnone]⟩
  | succ levels ih =>
    intro bs v rest hbs h
    obtain ⟨hrest, hv, hparts⟩ := yieldsUpTo_readWith ih r bs v rest hbs h
    exact ⟨hrest, everywhere_iff.mpr ⟨hv, fun w hw => (hparts w hw).1⟩,
      fun w hw => (hparts w hw).2⟩

end DecodeLimits

end WireCodec
