import Mathlib.Data.List.Forall2
import Mathlib.Order.Bounds.Defs
import WireCodec.Proofs.Decoding.Contents
import WireCodec.Text.Utf8

/-!
# Where bytes stop being text

The first byte of a character tells the ranges of those behind it (`exists_utf8EncodeChar_iff`), so
bytes have a fault exactly where they are no text (`fault?_eq_none_iff`). It is at the end of the
longest text that they begin with (`isGreatest_index_fault`), and it is an end too early exactly
where more bytes would make a text of them (`length_fault_eq_none_iff`).
-/

namespace WireCodec

namespace Utf8

open String (utf8EncodeChar)

/-! ## Characters -/

/-- The bytes that spell a number. The first one tells how many there are, and each of the others
has six bits of the number. -/
inductive Spells (n : Nat) : Bytes → Prop
  | one {a : UInt8} : a.toNat = n → n < 0x80 → Spells n [a]
  | two {a x : UInt8} : a.toNat = n / 64 + 0xC0 → x.toNat = n % 64 + 0x80 →
      0x80 ≤ n → n < 0x800 → Spells n [a, x]
  | three {a x y : UInt8} : a.toNat = n / 4096 + 0xE0 → x.toNat = n / 64 % 64 + 0x80 →
      y.toNat = n % 64 + 0x80 → 0x800 ≤ n → n < 0x10000 → Spells n [a, x, y]
  | four {a x y z : UInt8} : a.toNat = n / 262144 + 0xF0 → x.toNat = n / 4096 % 64 + 0x80 →
      y.toNat = n / 64 % 64 + 0x80 → z.toNat = n % 64 + 0x80 → 0x10000 ≤ n → Spells n [a, x, y, z]

/-- Bytes are in ranges, one by one. -/
def InRanges (due : List Range) (bs : Bytes) : Prop :=
  List.Forall₂ (fun range b => range.1 ≤ b ∧ b ≤ range.2) due bs

variable {b : UInt8} {bs tail : Bytes} {due : List Range} {index start n : Nat} {f : Fault}

theorem spells_utf8EncodeChar (c : Char) : Spells c.toNat (utf8EncodeChar c) := by
  have hbyte (m : Nat) (hm : m < 256) : (UInt8.ofNat m).toNat = m := by
    rw [UInt8.toNat_ofNat', Nat.mod_eq_of_lt hm]
  have hvalid : c.toNat < 0xD800 ∨ 0xDFFF < c.toNat ∧ c.toNat < 0x110000 := c.valid
  rw [utf8EncodeChar]
  simp only [Char.toNat_val]
  split
  · exact .one (hbyte _ (by omega)) (by omega)
  split
  · exact .two (by rw [hbyte _ (by omega)]; omega) (hbyte _ (by omega)) (by omega) (by omega)
  split
  · exact .three (by rw [hbyte _ (by omega)]; omega) (hbyte _ (by omega)) (hbyte _ (by omega))
      (by omega) (by omega)
  · exact .four (by rw [hbyte _ (by omega)]; omega) (hbyte _ (by omega)) (hbyte _ (by omega))
      (hbyte _ (by omega)) (by omega)

theorem Spells.unique (h : Spells n bs) (h' : Spells n tail) : bs = tail := by
  cases h <;> cases h' <;>
    simp only [List.cons.injEq, ← UInt8.toNat_inj, reduceCtorEq, and_true, and_false] <;> omega

theorem following_one (h : b.toNat < 0x80) : following b = some [] := by
  rw [following, if_pos (UInt8.lt_iff_toNat_lt.mpr h)]

theorem following_two (h : 0xC2 ≤ b.toNat) (h' : b.toNat < 0xE0) :
    following b = some [(0x80, 0xBF)] := by
  simp only [following, UInt8.lt_iff_toNat_lt, UInt8.reduceToNat]
  rw [if_neg (by omega), if_neg (by omega), if_pos h']

theorem following_three (h : 0xE0 ≤ b.toNat) (h' : b.toNat < 0xF0) :
    following b = some [(if b = 0xE0 then 0xA0 else 0x80, if b = 0xED then 0x9F else 0xBF),
      (0x80, 0xBF)] := by
  simp only [following, UInt8.lt_iff_toNat_lt, UInt8.reduceToNat]
  rw [if_neg (by omega), if_neg (by omega), if_neg (by omega), if_pos h']

theorem following_four (h : 0xF0 ≤ b.toNat) (h' : b.toNat < 0xF5) :
    following b = some [(if b = 0xF0 then 0x90 else 0x80, if b = 0xF4 then 0x8F else 0xBF),
      (0x80, 0xBF), (0x80, 0xBF)] := by
  simp only [following, UInt8.lt_iff_toNat_lt, UInt8.reduceToNat]
  rw [if_neg (by omega), if_neg (by omega), if_neg (by omega), if_neg (by omega), if_pos h']

theorem following_none (h : 0x80 ≤ b.toNat ∧ b.toNat < 0xC2 ∨ 0xF5 ≤ b.toNat) :
    following b = none := by
  simp only [following, UInt8.lt_iff_toNat_lt, UInt8.reduceToNat]
  rw [if_neg (by omega)]
  rcases h with h | h
  · rw [if_pos h.2]
  · rw [if_neg (by omega), if_neg (by omega), if_neg (by omega), if_neg (by omega)]

theorem mem_range_iff {low high x : UInt8} :
    (low ≤ x ∧ x ≤ high) ↔ low.toNat ≤ x.toNat ∧ x.toNat ≤ high.toNat := by
  rw [UInt8.le_iff_toNat_le, UInt8.le_iff_toNat_le]

/-- A range with one end raised after a first byte `m`, and the other lowered after `m'`. -/
theorem mem_range_ite_iff {low low' high high' m m' x : UInt8} (hlow : low ≤ low')
    (hhigh : high' ≤ high) :
    ((if b = m then low' else low) ≤ x ∧ x ≤ (if b = m' then high' else high)) ↔
      (low.toNat ≤ x.toNat ∧ x.toNat ≤ high.toNat) ∧
        (b.toNat = m.toNat → low'.toNat ≤ x.toNat) ∧
        (b.toNat = m'.toNat → x.toNat ≤ high'.toNat) := by
  simp only [UInt8.toNat_inj, UInt8.le_iff_toNat_le] at *
  split <;> split <;> simp_all <;> omega

theorem inRanges_of_spells (hn : n < 0xD800 ∨ 0xDFFF < n ∧ n < 0x110000)
    (h : Spells n (b :: tail)) : ∃ due, following b = some due ∧ InRanges due tail := by
  cases h with
  | one ha => exact ⟨_, following_one (by omega), .nil⟩
  | two ha hx =>
    refine ⟨_, following_two (by omega) (by omega), .cons (mem_range_iff.mpr ?_) .nil⟩
    simp only [UInt8.reduceToNat]
    omega
  | three ha hx hy =>
    refine ⟨_, following_three (by omega) (by omega),
      .cons ((mem_range_ite_iff (by decide) (by decide)).mpr ?_)
        (.cons (mem_range_iff.mpr ?_) .nil)⟩
    all_goals
      simp only [UInt8.reduceToNat]
      omega
  | four ha hx hy hz =>
    refine ⟨_, following_four (by omega) (by omega),
      .cons ((mem_range_ite_iff (by decide) (by decide)).mpr ?_)
        (.cons (mem_range_iff.mpr ?_) (.cons (mem_range_iff.mpr ?_) .nil))⟩
    all_goals
      simp only [UInt8.reduceToNat]
      omega

theorem spells_of_inRanges (h : following b = some due) (ht : InRanges due tail) :
    ∃ n, (n < 0xD800 ∨ 0xDFFF < n ∧ n < 0x110000) ∧ Spells n (b :: tail) := by
  by_cases hnone : 0x80 ≤ b.toNat ∧ b.toNat < 0xC2 ∨ 0xF5 ≤ b.toNat
  · rw [following_none hnone] at h
    cases h
  by_cases h1 : b.toNat < 0x80
  · rw [following_one h1] at h
    cases h
    cases ht
    exact ⟨b.toNat, by omega, .one rfl h1⟩
  by_cases h2 : b.toNat < 0xE0
  · rw [following_two (by omega) h2] at h
    cases h
    obtain _ | ⟨hx, _ | _⟩ := ht
    rename_i x
    simp only [mem_range_iff, UInt8.reduceToNat] at hx
    refine ⟨(b.toNat - 0xC0) * 64 + (x.toNat - 0x80), by omega, .two ?_ ?_ ?_ ?_⟩
    all_goals omega
  by_cases h3 : b.toNat < 0xF0
  · rw [following_three (by omega) h3] at h
    cases h
    obtain _ | ⟨hx, _ | ⟨hy, _ | _⟩⟩ := ht
    rename_i x y
    rw [mem_range_ite_iff (by decide) (by decide)] at hx
    simp only [mem_range_iff, UInt8.reduceToNat] at hx hy
    refine ⟨(b.toNat - 0xE0) * 4096 + (x.toNat - 0x80) * 64 + (y.toNat - 0x80), by omega,
      .three ?_ ?_ ?_ ?_ ?_⟩
    all_goals omega
  · rw [following_four (by omega) (by omega)] at h
    cases h
    obtain _ | ⟨hx, _ | ⟨hy, _ | ⟨hz, _ | _⟩⟩⟩ := ht
    rename_i x y z
    rw [mem_range_ite_iff (by decide) (by decide)] at hx
    simp only [mem_range_iff, UInt8.reduceToNat] at hx hy hz
    refine ⟨(b.toNat - 0xF0) * 262144 + (x.toNat - 0x80) * 4096 + (y.toNat - 0x80) * 64 +
      (z.toNat - 0x80), by omega, .four ?_ ?_ ?_ ?_ ?_⟩
    all_goals omega

/-- The bytes of characters are those that begin with the first byte of one and go on with bytes of
the ranges that go with it. -/
theorem exists_utf8EncodeChar_iff :
    (∃ c, utf8EncodeChar c = b :: tail) ↔ ∃ due, following b = some due ∧ InRanges due tail := by
  constructor
  · rintro ⟨c, hc⟩
    exact inRanges_of_spells c.valid (hc ▸ spells_utf8EncodeChar c)
  · rintro ⟨due, h, ht⟩
    obtain ⟨n, hn, hs⟩ := spells_of_inRanges h ht
    have hc := spells_utf8EncodeChar (Char.ofNat n)
    rw [Utf16.toNat_ofNat hn] at hc
    exact ⟨Char.ofNat n, hc.unique hs⟩

/-- Some bytes are in the ranges that go with a first byte. -/
theorem exists_inRanges (h : following b = some due) : ∃ tail, InRanges due tail := by
  unfold following at h
  simp only at h
  split at h
  · cases h
    exact ⟨_, .nil⟩
  split at h
  · cases h
  split at h
  · cases h
    exact ⟨[0x80], .cons (by decide) .nil⟩
  split at h
  · cases h
    refine ⟨[_, 0x80], .cons ⟨UInt8.le_refl _, ?_⟩ (.cons (by decide) .nil)⟩
    split <;> split <;> simp_all
  split at h
  · cases h
    refine ⟨[_, 0x80, 0x80], .cons ⟨UInt8.le_refl _, ?_⟩
      (.cons (by decide) (.cons (by decide) .nil))⟩
    split <;> split <;> simp_all
  · cases h

/-! ## Texts -/

theorem isSome_decode?_iff :
    (decode? bs).isSome = true ↔ ∃ cs : List Char, bs = cs.flatMap utf8EncodeChar := by
  have hbytes (cs : List Char) :
      (⟨bs.toArray⟩ : ByteArray) = cs.utf8Encode ↔ bs = cs.flatMap utf8EncodeChar := by
    rw [List.utf8Encode, ByteArray.ext_iff, ← Array.toList_inj, List.toList_data_toByteArray]
  rw [decode?, String.fromUTF8?]
  split
  · next h =>
    obtain ⟨cs, hcs⟩ := h
    exact ⟨fun _ => ⟨cs, (hbytes cs).mp hcs⟩, fun _ => rfl⟩
  · next h => exact ⟨nofun, fun ⟨cs, hcs⟩ => absurd ⟨cs, (hbytes cs).mpr hcs⟩ h⟩

theorem faultFrom_append (h : InRanges due tail) (rest : Bytes) :
    faultFrom index start due (tail ++ rest) = faultFrom (index + tail.length) start [] rest := by
  induction h generalizing index with
  | nil => rfl
  | cons hb _ ih =>
    rw [List.cons_append, faultFrom, if_pos hb, ih, List.length_cons, Nat.add_right_comm,
      Nat.add_assoc]

theorem faultFrom_flatMap (cs : List Char) :
    faultFrom index start [] (cs.flatMap utf8EncodeChar) = none := by
  induction cs generalizing index start with
  | nil => rfl
  | cons c cs ih =>
    rw [List.flatMap_cons]
    cases hc : utf8EncodeChar c with
    | nil => exact ih
    | cons b tail =>
      obtain ⟨due, hdue, htail⟩ := exists_utf8EncodeChar_iff.mp ⟨c, hc⟩
      rw [List.cons_append, faultFrom, hdue]
      exact (faultFrom_append htail _).trans ih

/-- Bytes with no fault finish the character under way, and go on with others. -/
theorem exists_of_faultFrom_eq_none (h : faultFrom index start due bs = none) :
    ∃ tail rest, bs = tail ++ rest ∧ InRanges due tail ∧
      ∃ cs : List Char, rest = cs.flatMap utf8EncodeChar := by
  fun_induction faultFrom index start due bs with
  | case1 => exact ⟨[], [], rfl, .nil, [], rfl⟩
  | case2 => cases h
  | case3 index start b bs due hdue ih =>
    obtain ⟨tail, _, rfl, htail, cs, rfl⟩ := ih h
    obtain ⟨c, hc⟩ := exists_utf8EncodeChar_iff.mpr ⟨due, hdue, htail⟩
    exact ⟨[], _, rfl, .nil, c :: cs, by rw [List.flatMap_cons, hc, List.cons_append]⟩
  | case4 => cases h
  | case5 index start range due b bs hb ih =>
    obtain ⟨tail, rest, rfl, htail, hrest⟩ := ih h
    exact ⟨b :: tail, rest, rfl, .cons hb htail, hrest⟩
  | case6 => cases h

theorem fault?_eq_none_iff : fault? bs = none ↔ (decode? bs).isSome = true := by
  rw [isSome_decode?_iff]
  constructor
  · intro h
    obtain ⟨_, _, rfl, ⟨⟩, hrest⟩ := exists_of_faultFrom_eq_none h
    exact hrest
  · rintro ⟨cs, rfl⟩
    exact faultFrom_flatMap cs

/-! ## The place of a fault -/

/-- A fault is where a character begins. That is the one under way, or else what is before the fault
is faultless. -/
theorem faultFrom_take (h : faultFrom index start due bs = some f) :
    (due ≠ [] ∧ f.index = start) ∨
      (index ≤ f.index ∧ f.index ≤ index + bs.length ∧
        faultFrom index start due (bs.take (f.index - index)) = none) := by
  fun_induction faultFrom index start due bs with
  | case1 => cases h
  | case2 => cases h; exact .inl ⟨List.cons_ne_nil _ _, rfl⟩
  | case3 index start b bs due hdue ih =>
    refine .inr ?_
    rcases ih h with ⟨_, hf⟩ | ⟨hle, hle', hnone⟩
    · rw [hf]
      exact ⟨Nat.le_refl _, Nat.le_add_right _ _, by rw [Nat.sub_self]; rfl⟩
    · refine ⟨by omega, by rw [List.length_cons]; omega, ?_⟩
      rw [show f.index - index = f.index - (index + 1) + 1 by omega, List.take_succ_cons, faultFrom,
        hdue]
      exact hnone
  | case4 index start b bs hb =>
    cases h
    exact .inr ⟨Nat.le_refl _, Nat.le_add_right _ _, by rw [Nat.sub_self]; rfl⟩
  | case5 index start range due b bs hb ih =>
    rcases ih h with ⟨_, hf⟩ | ⟨hle, hle', hnone⟩
    · exact .inl ⟨List.cons_ne_nil _ _, hf⟩
    · refine .inr ⟨by omega, by rw [List.length_cons]; omega, ?_⟩
      rw [show f.index - index = f.index - (index + 1) + 1 by omega, List.take_succ_cons, faultFrom,
        if_pos hb]
      exact hnone
  | case6 => cases h; exact .inl ⟨List.cons_ne_nil _ _, rfl⟩

theorem faultFrom_append_of_eq_none (h : faultFrom index start due bs = none) (rest : Bytes) :
    faultFrom index start due (bs ++ rest) = faultFrom (index + bs.length) 0 [] rest := by
  fun_induction faultFrom index start due bs with
  | case1 => cases rest <;> rfl
  | case2 => cases h
  | case3 index start b bs due hdue ih =>
    rw [List.cons_append, faultFrom, hdue]
    exact (ih h).trans (by rw [List.length_cons, Nat.add_right_comm, Nat.add_assoc])
  | case4 => cases h
  | case5 index start range due b bs hb ih =>
    rw [List.cons_append, faultFrom, if_pos hb, ih h, List.length_cons, Nat.add_right_comm,
      Nat.add_assoc]
  | case6 => cases h

/-- A byte that a character does not go on with stays one. -/
theorem faultFrom_append_of_eq_some {place length : Nat}
    (h : faultFrom index start due bs = some ⟨place, some length⟩) (more : Bytes) :
    faultFrom index start due (bs ++ more) = some ⟨place, some length⟩ := by
  fun_induction faultFrom index start due bs with
  | case1 => cases h
  | case2 => cases h
  | case3 index start b bs due hdue ih =>
    rw [List.cons_append, faultFrom, hdue]
    exact ih h
  | case4 index start b bs hb =>
    rw [List.cons_append, faultFrom, hb]
    exact h
  | case5 index start range due b bs hb ih =>
    rw [List.cons_append, faultFrom, if_pos hb]
    exact ih h
  | case6 index start range due b bs hb =>
    rw [List.cons_append, faultFrom, if_neg hb]
    exact h

/-- A character that the bytes only break off can be gone on with. -/
theorem exists_append_of_faultFrom {place : Nat}
    (h : faultFrom index start due bs = some ⟨place, none⟩) (hdue : ∃ tail, InRanges due tail) :
    ∃ more, faultFrom index start due (bs ++ more) = none := by
  fun_induction faultFrom index start due bs with
  | case1 => cases h
  | case2 =>
    obtain ⟨tail, htail⟩ := hdue
    refine ⟨tail ++ [], ?_⟩
    rw [List.nil_append, faultFrom_append htail]
    rfl
  | case3 index start b bs due hb ih =>
    obtain ⟨more, hmore⟩ := ih h (exists_inRanges hb)
    exact ⟨more, by rw [List.cons_append, faultFrom, hb]; exact hmore⟩
  | case4 => cases h
  | case5 index start range due b bs hb ih =>
    obtain ⟨_, _ | ⟨_, htail⟩⟩ := hdue
    obtain ⟨more, hmore⟩ := ih h ⟨_, htail⟩
    exact ⟨more, by rw [List.cons_append, faultFrom, if_pos hb]; exact hmore⟩
  | case6 => cases h

theorem fault?_eq_some (h : decode? bs = none) : fault? bs = some (fault bs) := by
  cases hf : fault? bs with
  | none =>
    rw [fault?_eq_none_iff, h] at hf
    cases hf
  | some f => rw [fault, hf, Option.getD_some]

/-- The fault of bytes that are no text is at the end of the longest text they begin with. -/
theorem isGreatest_index_fault (h : decode? bs = none) :
    IsGreatest {i | i ≤ bs.length ∧ (decode? (bs.take i)).isSome = true} (fault bs).index := by
  have hf := fault?_eq_some h
  simp only [← fault?_eq_none_iff]
  constructor
  · obtain ⟨hne, _⟩ | ⟨_, hle, htake⟩ := faultFrom_take hf
    · exact absurd rfl hne
    · exact ⟨Nat.zero_add bs.length ▸ hle, htake⟩
  · intro i ⟨hi, hnone⟩
    have hrest := faultFrom_append_of_eq_none hnone (bs.drop i)
    rw [List.take_append_drop, List.length_take_of_le hi, Nat.zero_add] at hrest
    obtain ⟨hne, _⟩ | ⟨hle, _⟩ := faultFrom_take (hrest.symm.trans hf)
    · exact absurd rfl hne
    · exact hle

/-- The fault has no length exactly where more bytes make a text of them. -/
theorem length_fault_eq_none_iff (h : decode? bs = none) :
    (fault bs).length = none ↔ ∃ more, (decode? (bs ++ more)).isSome = true := by
  have hf := fault?_eq_some h
  simp only [← fault?_eq_none_iff]
  generalize fault bs = f at hf ⊢
  obtain ⟨index, _ | length⟩ := f
  · exact ⟨fun _ => exists_append_of_faultFrom hf ⟨[], .nil⟩, fun _ => rfl⟩
  · refine ⟨nofun, fun ⟨more, hmore⟩ => ?_⟩
    rw [fault?, faultFrom_append_of_eq_some hf more] at hmore
    cases hmore

end Utf8

end WireCodec
