import WireCodec.Proofs.Decoding.Steps
import WireCodec.Proofs.Object.Parts

/-!
# Scalars read back from their own bytes

Every scalar, and every structured object, is read back from the bytes that it is written as,
whatever follows them. Two things do not travel: the sign of a decimal zero, and a fraction that
runs on over a leap second. A type has to be told by its name, or by an id other than the zero
that announces a name.
-/

namespace WireCodec

/-! ## Modified UTF-8 -/

namespace ModifiedUtf8

open Utf16 (CodeUnit)

theorem continuation_ofNat (offset : Nat) {x : Nat} (h : x < 0x40) :
    continuation offset (UInt8.ofNat (0x80 + x)) = .ok x := by
  have hx : (UInt8.ofNat (0x80 + x)).toNat = 0x80 + x := by simp; omega
  rw [continuation, hx, if_pos (by omega)]
  congr 1
  omega

theorem decodeUnits_encodeUnit (offset : Nat) (u : CodeUnit) (more : Bytes) :
    decodeUnits offset (encodeUnit u ++ more) =
      (u :: ·) <$> decodeUnits (offset + unitLength u) more := by
  have hu := u.isLt
  rw [encodeUnit, unitLength]
  split
  case isTrue h =>
    have hlead : (UInt8.ofNat u.toNat).toNat = u.toNat := by simp; omega
    rw [List.singleton_append, decodeUnits.eq_def]
    simp only [hlead, if_pos h.2, BitVec.ofNat_toNat, BitVec.setWidth_eq]
    rfl
  case isFalse h =>
    split
    case isTrue h' =>
      have hlead : (UInt8.ofNat (0xC0 + u.toNat / 0x40)).toNat = 0xC0 + u.toNat / 0x40 := by
        simp; omega
      have hunit : (0xC0 + u.toNat / 0x40) % 0x20 * 0x40 + u.toNat % 0x40 = u.toNat := by omega
      simp only [List.cons_append, List.nil_append, decodeUnits, hlead,
        continuation_ofNat _ (Nat.mod_lt u.toNat (by decide : 0x40 > 0))]
      rw [if_neg (by omega), if_pos (by omega)]
      simp [bind, Except.bind, hunit]
      rfl
    case isFalse h' =>
      have hlead : (UInt8.ofNat (0xE0 + u.toNat / 0x1000)).toNat = 0xE0 + u.toNat / 0x1000 := by
        simp; omega
      have hunit : (0xE0 + u.toNat / 0x1000) % 0x10 * 0x1000 + u.toNat / 0x40 % 0x40 * 0x40 +
          u.toNat % 0x40 = u.toNat := by omega
      simp only [List.cons_append, List.nil_append, decodeUnits, hlead,
        continuation_ofNat _ (Nat.mod_lt _ (by decide : 0x40 > 0))]
      rw [if_neg (by omega), if_neg (by omega), if_pos (by omega)]
      simp [bind, Except.bind, hunit]
      rfl

theorem decodeUnits_flatMap (offset : Nat) (us : List CodeUnit) :
    decodeUnits offset (us.flatMap encodeUnit) = .ok us := by
  induction us generalizing offset with
  | nil => rfl
  | cons u us ih => rw [List.flatMap_cons, decodeUnits_encodeUnit, ih]; rfl

theorem decode_encode (s : String) : decode (encode s) = .ok s := by
  rw [decode, encode, decodeUnits_flatMap]
  simp [bind, Except.bind, Utf16.decode_encode]
  rfl

end ModifiedUtf8

/-! ## Decimals -/

namespace Decimal

/-- The natural whose bytes these are, most significant first. -/
def ofBigEndian (bs : Bytes) : Nat := bs.foldl (fun m b => m * 256 + b.toNat) 0

theorem ofBigEndian_append (bs : Bytes) (b : UInt8) :
    ofBigEndian (bs ++ [b]) = ofBigEndian bs * 256 + b.toNat := by
  simp [ofBigEndian, List.foldl_append]

theorem ofBigEndian_zero_cons (bs : Bytes) : ofBigEndian (0 :: bs) = ofBigEndian bs := rfl

theorem ofBigEndian_bigEndian {n v : Nat} (h : v < Nat.pow 256 n) : ofBigEndian (bigEndian n v) = v := by
  induction n generalizing v with
  | zero => simp at h; subst h; rfl
  | succ n ih =>
    rw [bigEndian]
    split
    case isTrue hv => exact hv.symm
    case isFalse =>
      have hdiv : v / 256 < Nat.pow 256 n := by
        rw [Nat.pow_eq] at h ⊢
        rw [Nat.pow_succ] at h
        omega
      have hlow : (UInt8.ofNat (v % 256)).toNat = v % 256 := by simp
      rw [ofBigEndian_append, ih hdiv, hlow]
      omega

theorem le_foldl (bs : Bytes) (m : Nat) : m ≤ bs.foldl (fun m b => m * 256 + b.toNat) m := by
  induction bs generalizing m with
  | nil => exact Nat.le_refl m
  | cons b bs ih => exact Nat.le_trans (by omega) (ih (m * 256 + b.toNat))

/-- A magnitude below 128 bits is taken whole: no byte comes after 120 bits are used up. -/
theorem accumulate_foldl {length i m : Nat} {bs : Bytes}
    (h : bs.foldl (fun m b => m * 256 + b.toNat) m < 1 <<< 128) :
    accumulate length i m bs = .ok (bs.foldl (fun m b => m * 256 + b.toNat) m) := by
  induction bs generalizing i m with
  | nil => rfl
  | cons b bs ih =>
    have hle := le_foldl bs (m * 256 + b.toNat)
    rw [List.foldl_cons] at h ⊢
    rw [accumulate, if_pos (by omega)]
    exact ih h

/-- The top bit of a byte can hold a sign if the byte does not need it. -/
theorem sign_bit {b : UInt8} (h : b.toNat < 0x80) :
    b &&& 0x7F = b ∧ (b ||| 0x80) &&& 0x7F = b ∧ ¬ (b ||| 0x80).toNat < 0x80 := by
  have hall : ∀ n < 0x80, UInt8.ofNat n &&& 0x7F = UInt8.ofNat n ∧
      (UInt8.ofNat n ||| 0x80) &&& 0x7F = UInt8.ofNat n ∧
      ¬ (UInt8.ofNat n ||| 0x80).toNat < 0x80 := by decide
  have hb := hall b.toNat h
  rwa [UInt8.ofNat_toNat] at hb

theorem length_bigEndian_le (n v : Nat) : (bigEndian n v).length ≤ n := by
  induction n generalizing v with
  | zero => exact Nat.le_refl 0
  | succ n ih =>
    rw [bigEndian]
    split
    · simp
    · simpa using ih (v / 256)

/-- The magnitude bytes hold the magnitude, and its sign in the top bit of the first of them. -/
theorem magnitudeBytes_eq (d : Decimal) : ∃ first rest, d.magnitudeBytes = first :: rest ∧
    rest.length ≤ 12 ∧ ofBigEndian ((first &&& 0x7F) :: rest) = d.magnitude.toNat ∧
    (if first.toNat < 0x80 then (d.magnitude.toNat : Int) else -d.magnitude.toNat) =
      d.mantissa := by
  have hvalue : ofBigEndian (bigEndian 12 d.magnitude.toNat) = d.magnitude.toNat :=
    ofBigEndian_bigEndian d.magnitude.isLt
  have hlength := length_bigEndian_le 12 d.magnitude.toNat
  rw [magnitudeBytes]
  cases hbytes : bigEndian 12 d.magnitude.toNat with
  | nil =>
    rw [hbytes] at hvalue
    refine ⟨0, [], rfl, Nat.zero_le 12, hvalue, ?_⟩
    simp [mantissa, ← hvalue, ofBigEndian]
  | cons b bs =>
    rw [hbytes] at hvalue hlength
    -- the bytes with room for the sign
    obtain ⟨c, cs, hroom, hcs, hc, hvalue⟩ : ∃ c cs,
        (if b.toNat < 0x80 then b :: bs else 0 :: b :: bs) = c :: cs ∧ cs.length ≤ 12 ∧
        c.toNat < 0x80 ∧ ofBigEndian (c :: cs) = d.magnitude.toNat := by
      split
      case isTrue hb => exact ⟨b, bs, rfl, Nat.le_of_succ_le hlength, hb, hvalue⟩
      case isFalse =>
        exact ⟨0, b :: bs, rfl, hlength, by decide, (ofBigEndian_zero_cons _).trans hvalue⟩
    obtain ⟨hplain, hsigned, hsign⟩ := sign_bit hc
    dsimp only
    rw [hroom, mantissa]
    cases d.negative with
    | false => exact ⟨c, cs, rfl, hcs, by rw [hplain, hvalue], if_pos hc⟩
    | true => exact ⟨c ||| 0x80, cs, rfl, hcs, by rw [hsigned, hvalue], if_neg hsign⟩

theorem natAbs_mantissa (d : Decimal) : d.mantissa.natAbs = d.magnitude.toNat := by
  rw [mantissa]
  split <;> simp

theorem mantissa_neg_iff (d : Decimal) : d.mantissa < 0 ↔ d.arrived.negative = true := by
  have hzero : d.magnitude = 0#96 ↔ d.magnitude.toNat = 0 := by
    rw [← BitVec.toNat_inj, BitVec.toNat_ofNat, Nat.zero_mod]
  rw [mantissa]
  cases hneg : d.negative with
  | false => simp [arrived, hneg]
  | true => simp [arrived, hneg, hzero]; omega

theorem ofMantissa?_mantissa (d : Decimal) : ofMantissa? d.mantissa d.scale = some d.arrived := by
  have hlt : d.mantissa.natAbs < 2 ^ 96 := by
    rw [natAbs_mantissa]
    exact d.magnitude.isLt
  rw [ofMantissa?, dif_pos ⟨hlt, d.scale.isLt⟩]
  simp only [natAbs_mantissa, mantissa_neg_iff, BitVec.ofNatLT_toNat, Bool.decide_eq_true]
  rfl

theorem ofWire_magnitudeBytes (d : Decimal) : ofWire d.scale d.magnitudeBytes = .ok d.arrived := by
  obtain ⟨first, rest, hbytes, -, hvalue, hmantissa⟩ := d.magnitudeBytes_eq
  have hlt := d.magnitude.isLt
  have hmagnitude : accumulate (first :: rest).length 0 0 ((first &&& 0x7F) :: rest) =
      .ok d.magnitude.toNat := by
    rw [ofBigEndian] at hvalue
    rw [accumulate_foldl (by omega), hvalue]
  have hscale : ¬ (d.scale.val : Int) < 0 := by omega
  have hroom : ¬ 1 <<< 127 ≤ d.magnitude.toNat := by omega
  rw [hbytes]
  simp only [ofWire, hmagnitude, bind, Except.bind, if_neg hscale, if_neg hroom, hmantissa,
    Int.toNat_natCast, ofMantissa?_mantissa, pure, Except.pure]

end Decimal

/-! ## Numbers, lengths and texts -/

namespace Decode

variable {n : Nat} {bs : Bytes}

theorem reads_primitive (k : Primitive) (x : k.Val) : Reads (primitive k) (k.encode x) x := by
  have h := (reads_take (k.length_encode x)).map k.decode
  rwa [k.decode_encode] at h

theorem reads_byte (b : UInt8) : Reads byte [b] b := by
  have hone : Reads (take 1) [b] [b] := reads_take rfl
  have h := hone.map fun bs => UInt8.ofNat (LittleEndian.ofBytes bs)
  simp only [LittleEndian.ofBytes, Nat.mul_zero, Nat.add_zero, UInt8.ofNat_toNat] at h
  exact h

theorem reads_int32 (x : Int32) : Reads int32 (Encode.int32 x) x :=
  (reads_primitive (.int .w32 .signed) x.toBitVec).map fun x : BitVec 32 => Int32.ofBitVec x

theorem reads_int64 (x : BitVec 64) : Reads int64 (Encode.int64 x) x :=
  reads_primitive (.int .w64 .signed) x

theorem int32_ofNat (h : n ≤ Encode.maxLength) :
    Encode.int32 (Int32.ofNat n) = LittleEndian.toBytes 4 n ∧ (Int32.ofNat n).toInt = n := by
  rw [Encode.maxLength] at h
  constructor
  · rw [Encode.int32]
    congr 1
    change (BitVec.ofNat 32 n).toNat = n
    rw [BitVec.toNat_ofNat]
    omega
  · rw [Int32.toInt_ofNat_of_lt]
    exact Nat.lt_of_le_of_lt h (by decide)

theorem reads_size (h : n ≤ Encode.maxLength) : Reads size (LittleEndian.toBytes 4 n) n := by
  obtain ⟨hbytes, hint⟩ := int32_ofNat h
  rw [← hbytes]
  intro more
  rw [size, bind_ok (reads_int32 _ more)]
  simp only [hint]
  rw [if_neg (by omega)]
  rfl

theorem readsIf_length (h : n ≤ Encode.maxLength) (limit : Nat) :
    ReadsIf (n ≤ limit) (length limit) (LittleEndian.toBytes 4 n) n := by
  constructor
  · intro hle more
    rw [length, bind_ok (reads_size h more)]
    dsimp only
    rw [if_neg (by omega)]
    rfl
  · intro hlt more
    refine ⟨.lengthOverLimit n limit, ?_, .inl rfl⟩
    rw [length, bind_ok (reads_size h more)]
    dsimp only
    rw [if_pos (by omega)]
    rfl

theorem reads_text {s : String} (h : Encode.text s = .ok bs) : Reads text bs s := by
  obtain ⟨hle, rfl⟩ := Encode.text_eq_ok.mp h
  obtain ⟨hbytes, hint⟩ := int32_ofNat hle
  rw [← hbytes]
  refine (reads_int32 _).bind fun more => ?_
  have hsign : ¬ ((ModifiedUtf8.encode s).length : Int) < 0 := by omega
  simp only [hint, if_neg hsign, Int.toNat_natCast]
  rw [bind_ok (reads_take rfl more), ModifiedUtf8.decode_encode]
  rfl

end Decode

open Decode

/-! ## Types -/

namespace TypeRef

/-- The bytes of a reference to a type: its id, or zero and the name. -/
def encode : TypeRef → Except Error Bytes
  | (_, some name) => (Encode.int32 0 ++ ·) <$> Encode.text name
  | (id, none) => pure (Encode.int32 id)

/-- Reads a reference to a type. -/
def decode : Decode TypeRef := do
  let id ← int32
  if id = 0 then (fun name => (TypeName.id name, some name)) <$> Decode.text else return (id, none)

theorem reads_decode {t : TypeRef} {bs : Bytes} (h : t.encode = .ok bs) (ht : t.Told) :
    Reads decode bs t := by
  obtain ⟨hagrees, hreserved⟩ := ht
  obtain ⟨id, name⟩ := t
  cases name with
  | some name =>
    obtain ⟨text, htext, rfl⟩ := Encode.map_eq_ok.mp h
    rw [show id = TypeName.id name from hagrees name rfl]
    exact (reads_int32 0).bind ((reads_text htext).map fun name => (TypeName.id name, some name))
  | none =>
    cases h
    have hid : id ≠ 0 := fun hid => hreserved ⟨hid, rfl⟩
    intro more
    rw [decode, bind_ok (reads_int32 id more), if_neg hid]
    rfl

theorem exists_encode {t : TypeRef}
    (h : ∀ name ∈ t.2.toList, (ModifiedUtf8.encode name).length ≤ Encode.maxLength) :
    ∃ bs, t.encode = .ok bs := by
  obtain ⟨id, name⟩ := t
  cases name with
  | some name =>
    exact ⟨_, Encode.map_eq_ok.mpr ⟨_, Encode.text_eq_ok.mpr ⟨h name (by simp), rfl⟩, rfl⟩⟩
  | none => exact ⟨_, rfl⟩

end TypeRef

namespace EnumConstant

theorem encode_eq (c : EnumConstant) : c.encode =
    c.type.encode >>= fun type => pure (type ++ Encode.int32 c.ordinal) := by
  obtain ⟨typeId, name, ordinal⟩ := c
  cases name <;> rfl

theorem decode_eq : decode = TypeRef.decode >>= fun t =>
    int32 >>= fun ordinal => pure ⟨t.1, t.2, ordinal⟩ := by
  rw [decode, TypeRef.decode, bind_assoc]
  refine congrArg _ (funext fun id => ?_)
  split
  · rw [bind_map_left]
    rfl
  · rfl

theorem reads_decode {c : EnumConstant} {bs : Bytes} (h : c.encode = .ok bs) (hc : c.type.Told) :
    Reads decode bs c := by
  rw [encode_eq] at h
  obtain ⟨type, htype, h⟩ := Encode.bind_eq_ok.mp h
  cases h
  rw [decode_eq]
  exact (TypeRef.reads_decode htype hc).bind ((reads_int32 _).bind_pure _)

end EnumConstant

namespace StructuredObject

theorem encode_eq (o : StructuredObject) : o.encode =
    o.type.encode >>= fun type => Encode.byteLength o.payload.length >>= fun length =>
      pure ((if o.schemaId.isSome then schemaFlag else 0) ::
        (type ++ ((o.schemaId.map Encode.int32).getD [] ++ (length ++ o.payload)))) := by
  obtain ⟨typeId, name, schemaId, payload⟩ := o
  cases name <;> cases schemaId <;> simp [encode, type, TypeRef.encode]

theorem decode_eq (limit : Nat) : decode limit = byte >>= fun flags => TypeRef.decode >>= fun t =>
    (if flags &&& schemaFlag = schemaFlag then some <$> int32 else pure none) >>= fun schemaId =>
      Decode.length limit >>= fun n => take n >>= fun payload =>
        pure ⟨t.1, t.2, schemaId, payload⟩ := by
  rw [decode]
  refine congrArg _ (funext fun flags => ?_)
  rw [TypeRef.decode, bind_assoc]
  refine congrArg _ (funext fun id => ?_)
  split <;> split <;> simp only [bind_map_left, pure_bind] <;> rfl

theorem readsIf_decode {o : StructuredObject} {bs : Bytes} (h : o.encode = .ok bs)
    (ho : o.type.Told) (limit : Nat) : ReadsIf (o.payload.length ≤ limit) (decode limit) bs o := by
  obtain ⟨typeId, name, schemaId, payload⟩ := o
  rw [encode_eq] at h
  simp only [Encode.bind_eq_ok, Encode.byteLength_eq_ok, Encode.pure_eq_ok] at h
  obtain ⟨type, htype, _, ⟨hle, rfl⟩, rfl⟩ := h
  have hpayload : ReadsIf (payload.length ≤ limit)
      (Decode.length limit >>= fun n => take n >>= fun payload =>
        pure (StructuredObject.mk typeId name schemaId payload))
      (LittleEndian.toBytes 4 payload.length ++ payload) ⟨typeId, name, schemaId, payload⟩ :=
    ((readsIf_length hle limit).bind ((reads_take rfl).readsIf.bind_pure _)).congr (by simp)
  rw [decode_eq]
  refine .after (reads_byte _) (.after (TypeRef.reads_decode htype ho) (.after ?_ hpayload))
  cases schemaId with
  | some id =>
    rw [if_pos (by simp)]
    exact (reads_int32 id).map some
  | none =>
    rw [if_neg (by simp [schemaFlag])]
    exact .pure none

end StructuredObject

/-! ## Scalars -/

theorem Uuid.ofHalves_halves (u : Uuid) : ofHalves u.high u.low = u := by
  rw [ofHalves, high, low, BitVec.extractLsb'_append_extractLsb'_eq_extractLsb' (by decide)]
  simp

theorem Uuid.reads_decode (u : Uuid) : Reads decode u.encode u := by
  have hread : Reads decode u.encode (ofHalves u.high u.low) :=
    (reads_int64 u.high).bind ((reads_int64 u.low).bind_pure _)
  rwa [ofHalves_halves] at hread

theorem Decimal.reads_decode {d : Decimal} {bs : Bytes} (h : d.encode = .ok bs) :
    Reads decode bs d.arrived := by
  simp only [encode, Encode.bind_eq_ok, Encode.count_eq_ok, Encode.pure_eq_ok] at h
  obtain ⟨_, ⟨hle, rfl⟩, rfl⟩ := h
  have hscale : (Int32.ofNat d.scale).toInt = d.scale.val :=
    (int32_ofNat (by have := d.scale.isLt; rw [Encode.maxLength]; omega)).2
  rw [List.append_assoc]
  refine (reads_int32 _).bind ((reads_size hle).bind fun more => ?_)
  rw [bind_ok (reads_take rfl more), hscale, ofWire_magnitudeBytes]
  rfl

theorem Timestamp.ofWire?_eq_some_iff {seconds nanoseconds : Int} {t : Timestamp} :
    ofWire? seconds nanoseconds = some t ↔
      t.seconds = seconds ∧ t.nanoseconds = nanoseconds ∧ t.nanoseconds < 1000000000 := by
  simp only [ofWire?, of?, Option.ite_none_right_eq_some, Option.dite_none_right_eq_some,
    Option.some.injEq]
  constructor
  · rintro ⟨hrange, hvalid, rfl⟩
    dsimp only
    omega
  · rintro ⟨rfl, rfl, hlt⟩
    exact ⟨by omega, t.valid, rfl⟩

theorem Timestamp.toInt_seconds (t : Timestamp) :
    (BitVec.ofInt 64 t.seconds).toInt = t.seconds := by
  obtain ⟨hfirst, hlast, -⟩ := t.valid
  rw [firstSecond] at hfirst
  rw [lastSecond] at hlast
  rw [BitVec.toInt_ofInt]
  exact Int.bmod_eq_of_le (by omega) (by omega)

theorem Timestamp.nanoseconds_lt (t : Timestamp) : t.nanoseconds < 2000000000 := by
  have := t.valid.2.2
  omega

/-- The two numbers that an instant is written as. -/
theorem Timestamp.encode_eq (t : Timestamp) : t.encode =
    Encode.int64 (BitVec.ofInt 64 t.seconds) ++ Encode.int32 (Int32.ofNat t.nanoseconds) ∧
      (Int32.ofNat t.nanoseconds).toInt = t.nanoseconds := by
  have hlt := t.nanoseconds_lt
  obtain ⟨hbytes, hint⟩ :=
    int32_ofNat (n := t.nanoseconds) (by rw [Encode.maxLength]; omega)
  exact ⟨by rw [encode, hbytes], hint⟩

/-- Two numbers are read as the instant that they stand for. -/
theorem Timestamp.decode_append (seconds : BitVec 64) (nanoseconds : Int32) (more : Bytes) :
    decode (Encode.int64 seconds ++ Encode.int32 nanoseconds ++ more) =
      match ofWire? seconds.toInt nanoseconds.toInt with
      | some t => .ok (t, more)
      | none => .error (.timestampRange seconds.toInt nanoseconds.toInt) := by
  rw [List.append_assoc, decode, bind_ok (reads_int64 seconds _), bind_ok (reads_int32 _ more)]
  cases ofWire? seconds.toInt nanoseconds.toInt <;> rfl

/-- An instant is read back where no fraction of a second runs on over a leap second. -/
theorem Timestamp.readsIf_decode (t : Timestamp) :
    ReadsIf (t.nanoseconds < 1000000000) decode t.encode t := by
  obtain ⟨hbytes, hint⟩ := t.encode_eq
  constructor
  · intro hlt more
    rw [hbytes, decode_append, toInt_seconds, hint, ofWire?_eq_some_iff.mpr ⟨rfl, rfl, hlt⟩]
  · intro hle more
    have hnone : ofWire? t.seconds t.nanoseconds = none := by
      rw [ofWire?, if_neg (by omega)]
    rw [hbytes, decode_append, toInt_seconds, hint, hnone]
    exact ⟨_, rfl, .inl rfl⟩

namespace Scalar

theorem readsIf_decode {s : Scalar} {x : s.Val} {bs : Bytes} (h : s.encode x = .ok bs)
    (hx : ∀ t ∈ s.types x, t.Told) : ReadsIf (s.Plain x) s.decode bs (s.arrived x) := by
  cases s with
  | text => exact (reads_text h).readsIf
  | uuid => cases h; exact (Uuid.reads_decode x).readsIf
  | decimal => exact (Decimal.reads_decode h).readsIf
  | timestamp => cases h; exact Timestamp.readsIf_decode x
  | constant => exact (EnumConstant.reads_decode h (hx _ (List.mem_singleton_self _))).readsIf

theorem exists_encode {s : Scalar} {x : s.Val}
    (h : ∀ t ∈ s.texts x, (ModifiedUtf8.encode t).length ≤ Encode.maxLength) :
    ∃ bs, s.encode x = .ok bs := by
  cases s with
  | text => exact ⟨_, Encode.text_eq_ok.mpr ⟨h x (by simp [texts]), rfl⟩⟩
  | uuid => exact ⟨_, rfl⟩
  | decimal =>
    have hlength : (Decimal.magnitudeBytes x).length ≤ Encode.maxLength := by
      obtain ⟨first, rest, hbytes, hrest, -⟩ := Decimal.magnitudeBytes_eq x
      rw [hbytes, List.length_cons, Encode.maxLength]
      omega
    exact ⟨_, Encode.bind_eq_ok.mpr ⟨_, Encode.count_eq_ok.mpr ⟨hlength, rfl⟩, rfl⟩⟩
  | timestamp => exact ⟨_, rfl⟩
  | constant =>
    obtain ⟨type, htype⟩ := TypeRef.exists_encode (t := EnumConstant.type x) h
    exact ⟨_, (EnumConstant.encode_eq x).trans (Encode.bind_eq_ok.mpr ⟨type, htype, rfl⟩)⟩

end Scalar

end WireCodec
