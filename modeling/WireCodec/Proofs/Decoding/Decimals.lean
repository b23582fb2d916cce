import Mathlib.Algebra.Ring.Int.Defs
import Mathlib.Algebra.Ring.Nat
import WireCodec.Proofs.Decoding.Contents

/-!
# Decimals on the wire

Magnitude bytes are a sign bit and a natural (`Decimal.wireMantissa`), and a decimal is read from
them exactly if that integer and the scale are in range (`ofWire_eq_ok_iff`): the 120 bits after
which no further byte is taken are neither too few for any decimal nor too many. What is written is
the shortest of the byte strings that are read as the mantissa.

Magnitudes are naturals here; `ofWord` takes the same steps on words of 128 bits and has no result
where a step would lose a bit. It always has one (`ofWord_eq`).
-/

namespace WireCodec.Decimal

variable {bs : Bytes} {m n k length i : Nat} {scale : Int} {d : Decimal} {b : UInt8}

/-! ## Magnitudes -/

theorem foldl_eq (bs : Bytes) (m : Nat) :
    bs.foldl (fun m b => m * 256 + b.toNat) m = m * 256 ^ bs.length + ofBigEndian bs := by
  induction bs generalizing m with
  | nil => simp [ofBigEndian]
  | cons b bs ih =>
    have hfirst : ofBigEndian (b :: bs) = (0 * 256 + b.toNat) * 256 ^ bs.length + ofBigEndian bs :=
      ih (0 * 256 + b.toNat)
    rw [List.foldl_cons, ih, hfirst, List.length_cons, Nat.pow_succ', Nat.zero_mul, Nat.zero_add,
      Nat.add_mul, Nat.mul_assoc, Nat.add_assoc]

theorem ofBigEndian_cons (b : UInt8) (bs : Bytes) :
    ofBigEndian (b :: bs) = b.toNat * 256 ^ bs.length + ofBigEndian bs := by
  rw [ofBigEndian, List.foldl_cons, foldl_eq, Nat.zero_mul, Nat.zero_add]

theorem ofBigEndian_lt (bs : Bytes) : ofBigEndian bs < 256 ^ bs.length := by
  induction bs with
  | nil => exact Nat.one_pos
  | cons b bs ih =>
    have hb : b.toNat + 1 ≤ 256 := b.toNat_lt
    rw [ofBigEndian_cons, List.length_cons, Nat.pow_succ']
    calc b.toNat * 256 ^ bs.length + ofBigEndian bs
        < (b.toNat + 1) * 256 ^ bs.length := by rw [Nat.add_mul, Nat.one_mul]; omega
      _ ≤ 256 * 256 ^ bs.length := Nat.mul_le_mul_right _ hb

theorem bigEndian_length_le {v : Nat} (h : v < 256 ^ k) : (bigEndian n v).length ≤ k := by
  induction n generalizing v k with
  | zero => exact Nat.zero_le k
  | succ n ih =>
    rw [bigEndian]
    split
    case isTrue => exact Nat.zero_le k
    case isFalse hv =>
      cases k with
      | zero => rw [Nat.pow_zero] at h; omega
      | succ k =>
        rw [Nat.pow_succ] at h
        rw [List.length_append]
        exact Nat.succ_le_succ (ih (by omega))

/-- A magnitude is written in as few bytes as hold it beside the sign. -/
theorem length_magnitudeBytes_le (h : d.magnitude.toNat < 128 * 256 ^ k) :
    d.magnitudeBytes.length ≤ k + 1 := by
  have hlength : (bigEndian 12 d.magnitude.toNat).length ≤ k + 1 := by
    refine bigEndian_length_le (Nat.lt_of_lt_of_le h ?_)
    rw [Nat.pow_succ']
    exact Nat.mul_le_mul_right _ (by decide)
  have hvalue : ofBigEndian (bigEndian 12 d.magnitude.toNat) = d.magnitude.toNat :=
    ofBigEndian_bigEndian d.magnitude.isLt
  rw [magnitudeBytes]
  cases hbytes : bigEndian 12 d.magnitude.toNat with
  | nil => exact Nat.succ_le_succ (Nat.zero_le k)
  | cons b bs =>
    rw [hbytes] at hvalue hlength
    have hroom : (if b.toNat < 0x80 then b :: bs else 0 :: b :: bs).length ≤ k + 1 := by
      split
      case isTrue => exact hlength
      case isFalse hb =>
        -- the first byte needs the bit of the sign, so the magnitude takes up all its bytes
        have hpow : 128 * 256 ^ bs.length < 128 * 256 ^ k := by
          refine Nat.lt_of_le_of_lt ?_ h
          rw [← hvalue, ofBigEndian_cons]
          exact Nat.le_add_right_of_le (Nat.mul_le_mul_right _ (Nat.le_of_not_lt hb))
        have hlt : bs.length < k :=
          (Nat.pow_lt_pow_iff_right (by decide)).mp (Nat.lt_of_mul_lt_mul_left hpow)
        exact Nat.succ_le_succ hlt
    dsimp only
    split
    · split
      · exact Nat.zero_le _
      case h_2 hcons => rwa [hcons] at hroom
    · exact hroom

/-! ## The decimals that are read -/

/-- The integer that magnitude bytes stand for. -/
def wireMantissa : Bytes → Int
  | [] => 0
  | first :: rest =>
    let magnitude := ofBigEndian ((first &&& 0x7F) :: rest)
    if first.toNat < 0x80 then magnitude else -magnitude

theorem natAbs_wireMantissa (first : UInt8) (rest : Bytes) :
    (wireMantissa (first :: rest)).natAbs = ofBigEndian ((first &&& 0x7F) :: rest) := by
  rw [wireMantissa]
  split <;> simp

theorem accumulate_eq_ok {m' : Nat} (h : accumulate length i m bs = .ok m') (hm : m < 1 <<< 128) :
    bs.foldl (fun m b => m * 256 + b.toNat) m = m' ∧ m' < 1 <<< 128 := by
  induction bs generalizing i m with
  | nil => cases h; exact ⟨rfl, hm⟩
  | cons b bs ih =>
    have hb := b.toNat_lt
    rw [accumulate] at h
    split at h
    case isTrue hroom =>
      have hm : m * 256 + b.toNat < 1 <<< 128 := by omega
      exact ih h hm
    case isFalse => cases h

/-- The decimals that a mantissa and a scale make: all those of 96 bits and up to 28 places. -/
theorem ofMantissa?_isSome_iff {m : Int} {scale : Nat} :
    (∃ d, ofMantissa? m scale = some d) ↔ m.natAbs < 2 ^ 96 ∧ scale ≤ 28 := by
  rw [← Nat.lt_succ_iff, ← Option.isSome_iff_exists, ofMantissa?]
  split <;> simp_all

/-- Magnitude bytes are read as a decimal exactly if the integer that they stand for is in range. -/
theorem ofWire_eq_ok_iff : ofWire scale bs = .ok d ↔
    bs ≠ [] ∧ 0 ≤ scale ∧ ofMantissa? (wireMantissa bs) scale.toNat = some d := by
  cases bs with
  | nil => simp [ofWire]
  | cons first rest =>
    constructor
    · intro h
      obtain ⟨magnitude, hmagnitude, h⟩ := Encode.bind_eq_ok.mp h
      obtain ⟨hvalue, -⟩ := accumulate_eq_ok hmagnitude (by decide)
      by_cases hscale : scale < 0
      · simp only [if_pos hscale] at h
        cases h
      by_cases hroom : 1 <<< 127 ≤ magnitude
      · simp only [if_neg hscale, if_pos hroom] at h
        cases h
      simp only [if_neg hscale, if_neg hroom] at h
      refine ⟨List.cons_ne_nil _ _, Int.not_lt.mp hscale, ?_⟩
      rw [wireMantissa, ofBigEndian, hvalue]
      generalize (if first.toNat < 0x80 then (magnitude : Int) else -magnitude) = m at h ⊢
      cases hd : ofMantissa? m scale.toNat with
      | some d' => rw [hd] at h; cases h; rfl
      | none => rw [hd] at h; cases h
    · rintro ⟨-, hscale, hd⟩
      have hlt := (ofMantissa?_isSome_iff.mp ⟨d, hd⟩).1
      rw [natAbs_wireMantissa, ofBigEndian] at hlt
      have hmagnitude := @accumulate_foldl (first :: rest).length 0 _ _
        (Nat.lt_trans hlt (by decide))
      have hroom := Nat.not_le.mpr (Nat.lt_trans hlt (by decide : 2 ^ 96 < 1 <<< 127))
      rw [wireMantissa, ofBigEndian] at hd
      simp only [ofWire, hmagnitude, bind, Except.bind, if_neg (Int.not_lt.mpr hscale),
        if_neg hroom, hd, pure, Except.pure]

/-- Of the byte strings that are read as a mantissa the one that is written is the shortest. -/
theorem length_magnitudeBytes_le_of_wireMantissa (hbs : bs ≠ [])
    (h : wireMantissa bs = d.mantissa) : d.magnitudeBytes.length ≤ bs.length := by
  obtain ⟨first, rest, rfl⟩ := List.exists_cons_of_ne_nil hbs
  refine length_magnitudeBytes_le ?_
  have hrest := ofBigEndian_lt rest
  have hfirst : (first &&& 0x7F).toNat + 1 ≤ 128 := by
    rw [UInt8.toNat_and]
    exact Nat.succ_le_of_lt (Nat.and_lt_two_pow _ (by decide : 0x7F < 2 ^ 7))
  rw [← natAbs_mantissa, ← h, natAbs_wireMantissa, ofBigEndian_cons]
  calc (first &&& 0x7F).toNat * 256 ^ rest.length + ofBigEndian rest
      < ((first &&& 0x7F).toNat + 1) * 256 ^ rest.length := by rw [Nat.add_mul, Nat.one_mul]; omega
    _ ≤ 128 * 256 ^ rest.length := Nat.mul_le_mul_right _ hfirst

/-! ## On words of 128 bits -/

/-- A word with its bits moved up by a byte, if none is lost. -/
def moved? (m : BitVec 128) : Option (BitVec 128) :=
  if (m <<< 8) >>> 8 = m then some (m <<< 8) else none

/-- A word with the opposite sign, if there is one. -/
def negated? (m : BitVec 128) : Option (BitVec 128) :=
  if m.toInt = -2 ^ 127 then none else some (-m)

/-- Appends bytes to a word. -/
def accumulateWord (length : Nat) : Nat → BitVec 128 → Bytes → Option (Except Error (BitVec 128))
  | _, m, [] => some (.ok m)
  | i, m, b :: bs =>
    if m >>> 120 = 0 then do
      let above ← moved? m
      accumulateWord length (i + 1) (above ||| b.toBitVec.setWidth 128) bs
    else some (.error (.magnitudeOverflowAt length i))

/-- The decimal with this scale and these magnitude bytes, by arithmetic on words. -/
def ofWord (scale : Int) : Bytes → Option (Except Error Decimal)
  | [] => some (.error .emptyMagnitude)
  | first :: rest => do
    match ← accumulateWord (rest.length + 1) 0 0 ((first &&& 0x7F) :: rest) with
    | .error e => return .error e
    | .ok magnitude =>
      if scale < 0 then return .error (.negativeScale scale)
      else if magnitude.msb then return .error .magnitudeOverflow
      else
        let mantissa ← signed? first magnitude
        match ofMantissa? mantissa.toInt scale.toNat with
        | some d => return .ok d
        | none => return .error .decimalRange
where
  /-- The magnitude with the sign that the first byte has. -/
  signed? (first : UInt8) (magnitude : BitVec 128) : Option (BitVec 128) :=
    if first.toNat < 0x80 then some magnitude else negated? magnitude

theorem shiftRight_eq_zero_iff {m : BitVec 128} : m >>> 120 = 0 ↔ m.toNat < 1 <<< 120 := by
  rw [← BitVec.toNat_inj, BitVec.toNat_ushiftRight, Nat.shiftRight_eq_div_pow]
  change m.toNat / 2 ^ 120 = 0 ↔ _
  omega

/-- No bit of a word is lost if its top byte is free. -/
theorem moved?_eq {m : BitVec 128} (h : m.toNat < 1 <<< 120) :
    ∃ above, moved? m = some above ∧
      ∀ b : UInt8, (above ||| b.toBitVec.setWidth 128).toNat = m.toNat * 256 + b.toNat := by
  have habove : (m <<< 8).toNat = m.toNat <<< 8 := by
    rw [BitVec.toNat_shiftLeft]
    exact Nat.mod_eq_of_lt (by rw [Nat.shiftLeft_eq]; omega)
  refine ⟨m <<< 8, if_pos ?_, fun b => ?_⟩
  · rw [← BitVec.toNat_inj, BitVec.toNat_ushiftRight, habove, Nat.shiftLeft_shiftRight]
  · have hb := b.toNat_lt
    have hwide : (b.toBitVec.setWidth 128).toNat = b.toNat := by
      rw [BitVec.toNat_setWidth]
      exact Nat.mod_eq_of_lt (Nat.lt_trans hb (by decide))
    rw [BitVec.toNat_or, habove, hwide, ← Nat.shiftLeft_add_eq_or_of_lt hb, Nat.shiftLeft_eq]

theorem accumulateWord_eq (m : BitVec 128) (bs : Bytes) : accumulateWord length i m bs =
    some (BitVec.ofNat 128 <$> accumulate length i m.toNat bs) := by
  induction bs generalizing i m with
  | nil =>
    rw [accumulateWord, accumulate]
    simp [Functor.map, Except.map]
  | cons b bs ih =>
    rw [accumulateWord, accumulate]
    by_cases h : m.toNat < 1 <<< 120
    · obtain ⟨above, habove, hvalue⟩ := moved?_eq h
      rw [if_pos (shiftRight_eq_zero_iff.mpr h), if_pos h, ← hvalue, habove]
      exact ih _
    · rw [if_neg (mt shiftRight_eq_zero_iff.mp h), if_neg h]
      rfl

theorem negated?_eq {m : BitVec 128} (h : m.msb = false) :
    ∃ x, negated? m = some x ∧ x.toInt = -m.toNat := by
  have hvalue := BitVec.toInt_eq_toNat_of_msb h
  have hmin : m ≠ BitVec.intMin 128 := by
    intro hm
    rw [hm, BitVec.msb_intMin] at h
    cases h
  refine ⟨-m, if_neg (by omega), ?_⟩
  rw [BitVec.toInt_neg_of_ne_intMin hmin, hvalue]

theorem signed?_eq (first : UInt8) {m : BitVec 128} (h : m.msb = false) :
    ∃ x, ofWord.signed? first m = some x ∧
      x.toInt = if first.toNat < 0x80 then (m.toNat : Int) else -m.toNat := by
  rw [ofWord.signed?]
  split
  · exact ⟨m, rfl, BitVec.toInt_eq_toNat_of_msb h⟩
  · exact negated?_eq h

/-- The arithmetic on words is that on integers, and never overflows. -/
theorem ofWord_eq (scale : Int) (bs : Bytes) : ofWord scale bs = some (ofWire scale bs) := by
  cases bs with
  | nil => rfl
  | cons first rest =>
    have hword : accumulateWord (rest.length + 1) 0 0 ((first &&& 0x7F) :: rest) =
        some (BitVec.ofNat 128 <$> accumulate (rest.length + 1) 0 0 ((first &&& 0x7F) :: rest)) :=
      accumulateWord_eq 0 _
    rw [ofWord, hword, ofWire, List.length_cons]
    cases hmagnitude : accumulate (rest.length + 1) 0 0 ((first &&& 0x7F) :: rest) with
    | error e => rfl
    | ok magnitude =>
      obtain ⟨-, hlt⟩ := accumulate_eq_ok hmagnitude (by decide)
      have hnat : (BitVec.ofNat 128 magnitude).toNat = magnitude := Nat.mod_eq_of_lt hlt
      have hmsb : (BitVec.ofNat 128 magnitude).msb = decide (1 <<< 127 ≤ magnitude) := by
        rw [BitVec.msb_eq_decide, hnat]
        rfl
      simp only [Functor.map, Except.map, bind, Except.bind, Option.bind, hmsb]
      by_cases hscale : scale < 0
      · simp only [if_pos hscale]
        rfl
      by_cases hroom : 1 <<< 127 ≤ magnitude
      · simp only [if_neg hscale, if_pos hroom, decide_eq_true hroom]
        rfl
      obtain ⟨x, hx, hint⟩ := signed?_eq first (hmsb.trans (decide_eq_false hroom))
      rw [hnat] at hint
      simp only [if_neg hscale, if_neg hroom, decide_eq_false hroom, hx, hint]
      generalize (if first.toNat < 0x80 then (magnitude : Int) else -magnitude) = m
      cases ofMantissa? m scale.toNat <;> rfl

/-! ## Whole decimals -/

/-- The bytes of a scale and of the magnitude bytes that follow it. -/
def layout (scale : Int32) (bs : Bytes) : Bytes :=
  Encode.int32 scale ++ LittleEndian.toBytes 4 bs.length ++ bs

/-- Reads a scale and the magnitude bytes that follow it. -/
def parts : Decode (Int32 × Bytes) := do
  let scale ← Decode.int32
  let length ← Decode.size
  let bs ← Decode.take length
  return (scale, bs)

/-- What is read as a decimal, by arithmetic on words. -/
def decodeWord (input : Bytes) : Option (Except Error (Decimal × Bytes)) :=
  match parts input with
  | .error e => some (.error e)
  | .ok ((scale, bs), rest) => (ofWord scale.toInt bs).map fun d => (·, rest) <$> d

theorem decode_eq_parts : decode = parts >>= fun p => liftM (ofWire p.1.toInt p.2) := by
  simp only [decode, parts, bind_assoc, pure_bind]
  refine congrArg _ (funext fun scale => congrArg _ (funext fun length =>
    congrArg _ (funext fun bs => ?_)))
  cases ofWire scale.toInt bs <;> rfl

theorem decodeWord_eq (input : Bytes) : decodeWord input = some (decode.runOn input) := by
  rw [decodeWord, decode_eq_parts]
  change _ = some ((parts >>= _) input)
  cases h : parts input with
  | error e => rw [Decode.bind_error h]
  | ok r =>
    obtain ⟨⟨scale, bs⟩, rest⟩ := r
    rw [Decode.bind_ok h]
    simp only [ofWord_eq]
    cases ofWire scale.toInt bs <;> rfl

theorem take_eq_ok {input rest : Bytes} (h : Decode.take n input = .ok (bs, rest)) :
    input = bs ++ rest ∧ bs.length = n := by
  rw [Decode.take, Bytes.shorterThan_eq] at h
  split at h
  case isTrue => cases h
  case isFalse hlength =>
    have hle : n ≤ input.length := by simpa using hlength
    rw [List.splitAt_eq] at h
    cases h
    exact ⟨(List.take_append_drop n input).symm, List.length_take_of_le hle⟩

theorem ok_of_map {α β : Type} {f : α → β} {d : Decode α} {input rest : Bytes} {y : β}
    (h : (f <$> d) input = .ok (y, rest)) : ∃ x, d input = .ok (x, rest) ∧ f x = y := by
  rw [map_eq_pure_bind] at h
  obtain ⟨x, mid, hx, h⟩ := Decode.ok_of_bind h
  cases h
  exact ⟨x, hx, rfl⟩

theorem int32_eq_ok {input rest : Bytes} {x : Int32} (h : Decode.int32 input = .ok (x, rest)) :
    input = Encode.int32 x ++ rest := by
  obtain ⟨_, hword, rfl⟩ := ok_of_map h
  obtain ⟨bs, htake, rfl⟩ := ok_of_map hword
  obtain ⟨rfl, hlength⟩ := take_eq_ok htake
  have hlt := LittleEndian.ofBytes_lt bs
  have hbytes := LittleEndian.toBytes_ofBytes bs
  rw [hlength] at hlt hbytes
  change _ = LittleEndian.toBytes 4 (BitVec.ofNat 32 (LittleEndian.ofBytes bs)).toNat ++ rest
  rw [BitVec.toNat_ofNat]
  exact congrArg (· ++ rest) ((congrArg _ (Nat.mod_eq_of_lt hlt)).trans hbytes).symm

theorem size_eq_ok {input rest : Bytes} (h : Decode.size input = .ok (n, rest)) :
    input = LittleEndian.toBytes 4 n ++ rest ∧ n ≤ Encode.maxLength := by
  obtain ⟨x, mid, hx, h⟩ := Decode.ok_of_bind h
  split at h
  case isTrue => cases h
  case isFalse hsign =>
    cases h
    have hword : x.toBitVec.toNat = x.toInt.toNat := by
      have hint : x.toInt = x.toBitVec.toInt := rfl
      have hcond := x.toBitVec.toInt_eq_toNat_cond
      have hlt := x.toBitVec.isLt
      split at hcond <;> omega
    have hlt := x.toInt_lt
    rw [int32_eq_ok hx, Encode.int32, hword, Encode.maxLength]
    exact ⟨rfl, by omega⟩

theorem reads_parts (scale : Int32) (h : bs.length ≤ Encode.maxLength) :
    Decode.Reads parts (layout scale bs) (scale, bs) := by
  rw [layout, List.append_assoc]
  exact (Decode.reads_int32 scale).bind
    ((Decode.reads_size h).bind ((Decode.reads_take rfl).bind_pure _))

theorem parts_eq_ok {input rest : Bytes} {scale : Int32}
    (h : parts input = .ok ((scale, bs), rest)) :
    input = layout scale bs ++ rest ∧ bs.length ≤ Encode.maxLength := by
  obtain ⟨_, _, hscale, h⟩ := Decode.ok_of_bind h
  obtain ⟨_, _, hlength, h⟩ := Decode.ok_of_bind h
  obtain ⟨_, _, hbs, h⟩ := Decode.ok_of_bind h
  cases h
  obtain ⟨hsize, hle⟩ := size_eq_ok hlength
  obtain ⟨htake, rfl⟩ := take_eq_ok hbs
  rw [int32_eq_ok hscale, hsize, htake, layout, List.append_assoc, List.append_assoc]
  exact ⟨rfl, hle⟩

theorem decode_layout (scale : Int32) (h : bs.length ≤ Encode.maxLength) (more : Bytes) :
    decode.runOn (layout scale bs ++ more) = (·, more) <$> ofWire scale.toInt bs := by
  rw [decode_eq_parts]
  change (parts >>= _) (layout scale bs ++ more) = _
  rw [Decode.bind_ok (reads_parts scale h more)]
  cases ofWire scale.toInt bs <;> rfl

/-- What is read as a decimal is a scale and magnitude bytes in range, however many these are. -/
theorem decode_eq_ok_iff {input rest : Bytes} : decode.runOn input = .ok (d, rest) ↔
    ∃ scale bs, input = layout scale bs ++ rest ∧ bs.length ≤ Encode.maxLength ∧
      bs ≠ [] ∧ 0 ≤ scale.toInt ∧ ofMantissa? (wireMantissa bs) scale.toInt.toNat = some d := by
  constructor
  · intro h
    have hread := h
    rw [decode_eq_parts] at hread
    obtain ⟨⟨scale, bs⟩, mid, hparts, -⟩ := Decode.ok_of_bind hread
    obtain ⟨rfl, hle⟩ := parts_eq_ok hparts
    rw [decode_layout scale hle] at h
    obtain ⟨d', hd, heq⟩ := Encode.map_eq_ok.mp h
    cases heq
    exact ⟨scale, bs, rfl, hle, ofWire_eq_ok_iff.mp hd⟩
  · rintro ⟨scale, bs, rfl, hle, hd⟩
    rw [decode_layout scale hle, ofWire_eq_ok_iff.mpr hd]
    rfl

theorem length_magnitudeBytes_le_maxLength (d : Decimal) :
    d.magnitudeBytes.length ≤ Encode.maxLength :=
  Nat.le_trans (length_magnitudeBytes_le (k := 12) (Nat.lt_trans d.magnitude.isLt (by decide)))
    (by decide)

theorem encode_eq (d : Decimal) :
    d.encode = .ok (layout (Int32.ofNat d.scale) d.magnitudeBytes) := by
  have hcount : Encode.count d.magnitudeBytes.length =
      .ok (LittleEndian.toBytes 4 d.magnitudeBytes.length) :=
    if_pos d.length_magnitudeBytes_le_maxLength
  rw [encode, hcount]
  rfl

/-- A decimal is written as its scale and the shortest magnitude bytes that stand for its mantissa,
and read back from them, but for the sign of a zero, whatever follows. Any bytes are read exactly if
they begin with a scale and magnitude bytes in range, which none are that are fewer; and the
arithmetic of 128 bits that this takes never overflows. -/
theorem decimal_layout :
    (∀ d : Decimal, d.encode = .ok (layout (Int32.ofNat d.scale) d.magnitudeBytes) ∧
      ∃ d' : Decimal, d'.mantissa = d.mantissa ∧ d'.scale = d.scale ∧
        (d'.negative = true ↔ d.mantissa < 0) ∧
        ∀ more, decode.runOn (layout (Int32.ofNat d.scale) d.magnitudeBytes ++ more) =
          .ok (d', more)) ∧
    (∀ (d d' : Decimal) (scale : Int32) (bs more rest : Bytes),
      bs.length < d.magnitudeBytes.length →
      decode.runOn (layout scale bs ++ more) = .ok (d', rest) → d'.mantissa ≠ d.mantissa) ∧
    (∀ input, decodeWord input = some (decode.runOn input)) ∧
    (∀ input d rest, decode.runOn input = .ok (d, rest) ↔
      ∃ scale bs, input = layout scale bs ++ rest ∧ bs.length ≤ Encode.maxLength ∧
        bs ≠ [] ∧ 0 ≤ scale.toInt ∧ ofMantissa? (wireMantissa bs) scale.toInt.toNat = some d) ∧
    ∀ m scale, (∃ d, ofMantissa? m scale = some d) ↔ m.natAbs < 2 ^ 96 ∧ scale ≤ 28 := by
  refine ⟨fun d => ⟨encode_eq d, d.arrived, mantissa_arrived d, rfl, (mantissa_neg_iff d).symm,
    reads_decode (encode_eq d)⟩, fun d d' scale bs more rest hlt hd hmantissa => ?_,
    decodeWord_eq, fun _ _ _ => decode_eq_ok_iff, fun _ _ => ofMantissa?_isSome_iff⟩
  have hle := Nat.le_trans (Nat.le_of_lt hlt) d.length_magnitudeBytes_le_maxLength
  rw [decode_layout scale hle] at hd
  obtain ⟨d'', hwire, heq⟩ := Encode.map_eq_ok.mp hd
  cases heq
  obtain ⟨hbs, -, hrange⟩ := ofWire_eq_ok_iff.mp hwire
  have hsame := (mantissa_of_ofMantissa? hrange).1.symm.trans hmantissa
  exact absurd (length_magnitudeBytes_le_of_wireMantissa hbs hsame) (Nat.not_le_of_lt hlt)

/-- The number -1.28 takes two magnitude bytes, since the bit of its sign is in use in one; that one
byte alone is read as another number. -/
theorem decimal_layout_of_full_byte :
    (⟨true, 128, 2⟩ : Decimal).encode = .ok (layout 2 [0x80, 0x80]) ∧
    ∀ (d : Decimal) (scale : Int32) (rest : Bytes),
      decode.runOn (layout scale [0x80] ++ []) = .ok (d, rest) → d.mantissa ≠ -128 :=
  ⟨(decimal_layout.1 ⟨true, 128, 2⟩).1, fun d scale rest hd =>
    decimal_layout.2.1 ⟨true, 128, 2⟩ d scale [0x80] [] rest (by decide) hd⟩

end WireCodec.Decimal
