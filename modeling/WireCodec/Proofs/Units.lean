import WireCodec.BitSet
import WireCodec.Config
import WireCodec.Frame.Layout
import WireCodec.Text.Utf8

/-!
The units that messages are framed in are read back from their own bytes: lengths, characters,
texts, ids and bit sets. No value of fixed width is larger than the largest unit.
-/

namespace WireCodec

theorem Primitive.size_le (k : Primitive) : k.size ≤ maxAtomicUnit := by
  rw [size]
  cases k.form with
  | int w => cases w <;> decide
  | _ => decide

theorem Utf8.decode?_encode (s : String) : Utf8.decode? (Utf8.encode s) = some s := by
  rw [decode?, encode, Array.toArray_toList, String.toUTF8_eq_toByteArray, String.fromUTF8?,
    dif_pos s.isValidUTF8]
  rfl

theorem Utf16.charOfUnit?_of_unitOfChar? {c : Char} {u : CodeUnit} (h : unitOfChar? c = some u) :
    charOfUnit? u = some c := by
  have hc : c.toNat < 0xD800 ∨ (0xDFFF < c.toNat ∧ c.toNat < 0x110000) := c.valid
  rw [unitOfChar?] at h
  split at h
  case isFalse => cases h
  case isTrue hunit =>
    cases h
    have hn : (BitVec.ofNat 16 c.toNat).toNat = c.toNat := by
      rw [BitVec.toNat_ofNat]
      exact Nat.mod_eq_of_lt hunit
    have hs : isSurrogate (BitVec.ofNat 16 c.toNat) = false := by
      simp only [isSurrogate, hn, Bool.and_eq_false_iff, decide_eq_false_iff_not]
      omega
    rw [charOfUnit?, hs, charOfUnit, hn, Char.ofNat_toNat]
    rfl

theorem Uuid.length_octets (u : Uuid) : u.octets.length = 16 := by simp [octets]

theorem Uuid.ofOctets_octets (u : Uuid) : ofOctets u.octets = u := by
  have hlt : u.bits.toNat < Nat.pow 256 16 := u.bits.isLt
  rw [ofOctets, octets, List.reverse_reverse, LittleEndian.ofBytes_toBytes, Nat.mod_eq_of_lt hlt,
    BitVec.ofNat_toNat]
  rfl

namespace Layout

theorem length_uuid (u : Uuid) : (uuid u).length = 16 := by
  simp [uuid, Uuid.length_octets]

theorem ofUuid_uuid (u : Uuid) : ofUuid (uuid u) = u := by
  have hhigh : (u.octets.take 8).reverse.length = 8 := by simp [Uuid.length_octets]
  rw [ofUuid, uuid, List.take_left' hhigh, List.drop_left' hhigh, List.reverse_reverse,
    List.reverse_reverse, List.take_append_drop, Uuid.ofOctets_octets]

theorem length_of_le {n : Nat} (h : n ≤ Encode.maxLength) :
    length n = .ok (LittleEndian.toBytes 4 n) := if_pos h

theorem checkLength_of_le {limit n : Nat} (h : n ≤ limit) : checkLength limit n = .ok n := by
  rw [checkLength, if_neg (by omega), if_neg (by omega)]
  rfl

end Layout

/-- The words of a set are those that it is made of. -/
theorem BitSet.ofWords_words (s : BitSet) : ofWords s.words = s := by
  obtain ⟨words, htrimmed⟩ := s
  have htrim : trim words = words := by
    rw [trim, List.reverse_eq_iff]
    cases hwords : words.reverse with
    | nil => rfl
    | cons x xs =>
      rw [List.dropWhile_cons, if_neg]
      intro hx
      have hx : x = 0 := by simpa using hx
      rw [List.getLast?_eq_head?_reverse, hwords, hx] at htrimmed
      exact htrimmed rfl
  simp only [ofWords, htrim]

theorem Item.filterMap_word? (words : List (BitVec 64)) :
    (words.map Item.ofWord).filterMap Item.word? = words := by
  rw [List.filterMap_map]
  exact List.filterMap_some

end WireCodec
