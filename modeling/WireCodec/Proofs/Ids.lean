import Mathlib.Logic.ExistsUnique
import WireCodec.Proofs.Marshalling.Appending
import WireCodec.Proofs.Units

/-!
# One layout of ids

An id inside a value is written as its two halves, each a word of 64 bits; an id of a message is
written as its octets, the first eight and the last eight each turned around. Both are the bytes of
the one number that the id is, with the eight high ones in front of the eight low ones. So a lemma
on the high and the low bytes of a number joins the two writers (`Uuid.encode_eq_uuid`), and as any
sixteen bytes are what some id is written as (`Uuid.encode_ofWire`), it joins the readers too.

Machine words cut and join the 128 bits by shifts, and take each half as a signed number or as an
unsigned one; the bytes are the same.
-/

namespace WireCodec

open LittleEndian

namespace Uuid

variable {bs : Bytes}

/-! ## Halves -/

theorem toNat_high (u : Uuid) : u.high.toNat = u.bits.toNat / Nat.pow 256 8 := by
  have hlt : u.bits.toNat < 2 ^ 128 := u.bits.isLt
  rw [high, BitVec.extractLsb'_toNat, Nat.shiftRight_eq_div_pow]
  exact Nat.mod_eq_of_lt (by omega)

theorem toNat_low (u : Uuid) : u.low.toNat = u.bits.toNat % Nat.pow 256 8 := by
  rw [low, BitVec.extractLsb'_toNat, Nat.shiftRight_zero]

theorem high_ofHalves (high low : BitVec 64) : (ofHalves high low).high = high := by
  rw [ofHalves, Uuid.high, BitVec.extractLsb'_append_eq_left]

theorem low_ofHalves (high low : BitVec 64) : (ofHalves high low).low = low := by
  rw [ofHalves, Uuid.low, BitVec.extractLsb'_append_eq_right]

/-- The octets are the high bytes from the last to the first, and then the low ones. -/
theorem octets_eq (u : Uuid) :
    u.octets = (Encode.int64 u.high).reverse ++ (Encode.int64 u.low).reverse := by
  rw [octets, toBytes_add 8 8, List.reverse_append, Encode.int64, Encode.int64, toNat_high,
    toNat_low, toBytes_mod]

/-- What is written inside a value is what is written of a message. -/
theorem encode_eq_uuid (u : Uuid) : u.encode = Layout.uuid u := by
  have hhigh : (Encode.int64 u.high).reverse.length = 8 := by simp [Encode.int64]
  rw [Layout.uuid, octets_eq, List.take_left' hhigh, List.drop_left' hhigh, List.reverse_reverse,
    List.reverse_reverse, encode]

theorem length_encode (u : Uuid) : u.encode.length = 16 := by
  rw [encode_eq_uuid, Layout.length_uuid]

/-! ## Sixteen bytes -/

/-- The id whose halves these bytes are, the high one first. -/
def ofWire (bs : Bytes) : Uuid :=
  ofHalves (BitVec.ofNat 64 (ofBytes (bs.take 8))) (BitVec.ofNat 64 (ofBytes (bs.drop 8)))

theorem int64_ofNat_ofBytes (h : bs.length = 8) :
    Encode.int64 (BitVec.ofNat 64 (ofBytes bs)) = bs := by
  have hlt : ofBytes bs < 2 ^ 64 := by
    have hbytes := ofBytes_lt bs
    rwa [h] at hbytes
  rw [Encode.int64, BitVec.toNat_ofNat, Nat.mod_eq_of_lt hlt, ← h, toBytes_ofBytes]

/-- Any sixteen bytes are what some id is written as. -/
theorem encode_ofWire (h : bs.length = 16) : (ofWire bs).encode = bs := by
  have htake : (bs.take 8).length = 8 := by rw [List.length_take, h]; rfl
  have hdrop : (bs.drop 8).length = 8 := by rw [List.length_drop, h]
  rw [encode, ofWire, high_ofHalves, low_ofHalves, int64_ofNat_ofBytes htake,
    int64_ofNat_ofBytes hdrop, List.take_append_drop]

theorem ofUuid_eq_ofWire (h : bs.length = 16) : Layout.ofUuid bs = ofWire bs := by
  have hback := Layout.ofUuid_uuid (ofWire bs)
  rwa [← encode_eq_uuid, encode_ofWire h] at hback

theorem decode_append (h : bs.length = 16) (more : Bytes) :
    decode.runOn (bs ++ more) = .ok (Layout.ofUuid bs, more) := by
  have hread := reads_decode (ofWire bs) more
  rwa [encode_ofWire h, ← ofUuid_eq_ofWire h] at hread

/-! ## Machine words -/

/-- The high half, shifted down. -/
def highWord (u : Uuid) : UInt64 := .ofBitVec ((u.bits >>> 64).setWidth 64)

/-- The low half, cut off. -/
def lowWord (u : Uuid) : UInt64 := .ofBitVec (u.bits.setWidth 64)

/-- Two halves, the high one shifted up past the low one. -/
def ofWords (high low : UInt64) : Uuid :=
  ⟨high.toBitVec.setWidth 128 <<< 64 ||| low.toBitVec.setWidth 128⟩

/-- The bytes of a signed word, which are those of its two's complement. -/
def signedBytes (x : Int64) : Bytes := Encode.int64 (BitVec.ofInt 64 x.toInt)

theorem toBitVec_highWord (u : Uuid) : u.highWord.toBitVec = u.high := by
  refine BitVec.eq_of_getLsbD_eq fun i hi => ?_
  simp [highWord, high, hi]

theorem toBitVec_lowWord (u : Uuid) : u.lowWord.toBitVec = u.low := by
  refine BitVec.eq_of_getLsbD_eq fun i hi => ?_
  simp [lowWord, low, hi]

theorem ofWords_eq (high low : UInt64) :
    ofWords high low = ofHalves high.toBitVec low.toBitVec := by
  rw [ofWords, ofHalves, BitVec.append_def, BitVec.shiftLeftZeroExtend_eq, BitVec.setWidth'_eq]

theorem signedBytes_eq (x : Int64) : signedBytes x = Encode.int64 x.toBitVec :=
  congrArg Encode.int64 BitVec.ofInt_toInt

/-- An id is written word by word, be the words signed or not. -/
theorem encode_eq_words (u : Uuid) :
    u.encode = signedBytes u.highWord.toInt64 ++ signedBytes u.lowWord.toInt64 ∧
      Layout.uuid u = toBytes 8 u.highWord.toNat ++ toBytes 8 u.lowWord.toNat := by
  have hhigh : Encode.int64 u.high = toBytes 8 u.highWord.toNat := by
    rw [← toBitVec_highWord]
    rfl
  have hlow : Encode.int64 u.low = toBytes 8 u.lowWord.toNat := by
    rw [← toBitVec_lowWord]
    rfl
  refine ⟨?_, ?_⟩
  · rw [signedBytes_eq, signedBytes_eq, encode, ← toBitVec_highWord, ← toBitVec_lowWord]
    rfl
  · rw [← encode_eq_uuid, encode, hhigh, hlow]

/-- Signed words are read, and joined as unsigned ones. -/
theorem decode_eq_words : decode = do
    let high ← Decode.int64
    let low ← Decode.int64
    return ofWords (Int64.ofBitVec high).toUInt64 (Int64.ofBitVec low).toUInt64 := by
  simp only [ofWords_eq]
  rfl

theorem ofUuid_eq_words (h : bs.length = 16) : Layout.ofUuid bs =
    ofWords (.ofNat (ofBytes (bs.take 8))) (.ofNat (ofBytes (bs.drop 8))) := by
  rw [ofUuid_eq_ofWire h, ofWords_eq]
  rfl

/-- There is one layout of ids. The two writers give the same sixteen bytes, those of the high half
and then those of the low half, whether these are taken as signed or unsigned words; the two readers
make the same id of any sixteen bytes, whatever comes behind them. Each reader gives back what either
writer wrote, and either writer gives back what either reader read, so any sixteen bytes are what
exactly one id is written as. -/
theorem one_layout :
    (∀ u : Uuid, u.encode = Layout.uuid u ∧ u.encode.length = 16 ∧
      (∀ o, u.write o = .ok () (o.append (Layout.uuid u))) ∧
      u.encode = signedBytes u.highWord.toInt64 ++ signedBytes u.lowWord.toInt64 ∧
      Layout.uuid u = toBytes 8 u.highWord.toNat ++ toBytes 8 u.lowWord.toNat) ∧
    (decode = do
      let high ← Decode.int64
      let low ← Decode.int64
      return ofWords (Int64.ofBitVec high).toUInt64 (Int64.ofBitVec low).toUInt64) ∧
    (∀ u : Uuid, Layout.ofUuid u.encode = u ∧ Layout.ofUuid (Layout.uuid u) = u ∧
      ∀ more, decode.runOn (u.encode ++ more) = .ok (u, more) ∧
        decode.runOn (Layout.uuid u ++ more) = .ok (u, more)) ∧
    ∀ bs : Bytes, bs.length = 16 →
      (∀ more, decode.runOn (bs ++ more) = .ok (Layout.ofUuid bs, more)) ∧
      Layout.ofUuid bs =
        ofWords (.ofNat (ofBytes (bs.take 8))) (.ofNat (ofBytes (bs.drop 8))) ∧
      (Layout.ofUuid bs).encode = bs ∧ Layout.uuid (Layout.ofUuid bs) = bs ∧
      ∃! u : Uuid, u.encode = bs := by
  refine ⟨fun u => ?_, decode_eq_words, fun u => ?_, fun bs h => ?_⟩
  · refine ⟨u.encode_eq_uuid, u.length_encode, fun o => ?_, u.encode_eq_words⟩
    rw [← encode_eq_uuid]
    exact u.appends_write o
  · have hback := Layout.ofUuid_uuid u
    rw [← encode_eq_uuid]
    rw [← encode_eq_uuid] at hback
    exact ⟨hback, hback, fun more => ⟨u.reads_decode more, u.reads_decode more⟩⟩
  · have hencode : (Layout.ofUuid bs).encode = bs := by
      rw [ofUuid_eq_ofWire h, encode_ofWire h]
    refine ⟨decode_append h, ofUuid_eq_words h, hencode, ?_, Layout.ofUuid bs, hencode, ?_⟩
    · rw [← encode_eq_uuid, hencode]
    · rintro u rfl
      rw [encode_eq_uuid, Layout.ofUuid_uuid]

/-- Both halves of this id are negative as signed words. -/
theorem one_layout_negative_halves :
    let bs : Bytes := [0x77, 0x66, 0x55, 0x44, 0x33, 0x22, 0x11, 0x80,
      0xff, 0xee, 0xdd, 0xcc, 0xbb, 0xaa, 0x99, 0x88]
    let u : Uuid := ⟨0x80112233445566778899aabbccddeeff⟩
    bs.length = 16 ∧ u.encode = bs ∧ Layout.uuid u = bs ∧ Layout.ofUuid bs = u ∧
      decode.runOn (bs ++ [1]) = .ok (u, [1]) ∧ ∃! u : Uuid, u.encode = bs := by
  intro bs u
  obtain ⟨hwriters, -, hback, hbytes⟩ := one_layout
  have hlength : bs.length = 16 := rfl
  have hencode : u.encode = bs := by decide
  have huuid : Layout.uuid u = bs := (hwriters u).1.symm.trans hencode
  have hofUuid : Layout.ofUuid bs = u := by
    have hu := (hback u).1
    rwa [hencode] at hu
  obtain ⟨hdecode, -, -, -, hunique⟩ := hbytes bs hlength
  refine ⟨hlength, hencode, huuid, hofUuid, ?_, hunique⟩
  rw [hdecode, hofUuid]

end Uuid

end WireCodec
