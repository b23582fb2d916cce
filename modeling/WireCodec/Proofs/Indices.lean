import Mathlib.Data.List.GetD
import Mathlib.Data.List.TakeWhile
import Mathlib.Data.Set.Card
import WireCodec.BitSet
import WireCodec.Proofs.RoundTrip.Messages
import WireCodec.Proofs.Twins

/-!
# Sets of indices

What a bit set holds is a bit for every index, of which all but finitely many are zero
(`BitSet.bit`). Zero words at the end do not matter for that, and each operation changes the bits
as it says. Because the last word is never zero, the bits determine the words, so sets with the same
indices are the same as stored.
-/

namespace WireCodec

namespace BitSet

/-- The bit of an index in words. Beyond their end there are zeros. -/
def bit (words : List (BitVec 64)) (i : Nat) : Bool := (words.getD (i / 64) 0).getLsbD (i % 64)

variable {s t : BitSet} {words : List (BitVec 64)} {i j w : Nat}

theorem contains_eq_bit (s : BitSet) (i : Nat) : s.contains i = bit s.words i := by
  rw [contains, bit, List.getD_eq_getElem?_getD]
  cases s.words[i / 64]? with
  | none => simp
  | some x => rfl

/-- Looking at a word through the mask of a bit is looking at the bit. -/
theorem and_mask_ne_zero (x : BitVec 64) (hi : i < 64) : (x &&& mask i != 0) = x.getLsbD i := by
  have hmask : mask i ≠ 0#64 := by
    intro hzero
    have hbit : (mask i).getLsbD i = (0#64).getLsbD i := by rw [hzero]
    simp [mask, hi] at hbit
  rw [mask] at hmask ⊢
  rw [BitVec.and_twoPow]
  cases x.getLsbD i <;> simp [hmask]

/-! ## Words -/

/-- Trimming takes zeros away from the end, and nothing else. -/
theorem exists_append_replicate (words : List (BitVec 64)) :
    ∃ n, words = trim words ++ List.replicate n 0 := by
  have hzeros : ∀ x ∈ words.reverse.takeWhile (· == 0), x = 0 := fun x hx => by
    simpa using List.mem_takeWhile_imp hx
  refine ⟨(words.reverse.takeWhile (· == 0)).length, ?_⟩
  rw [trim, ← List.reverse_replicate, ← List.reverse_append,
    ← List.eq_replicate_of_mem hzeros, List.takeWhile_append_dropWhile, List.reverse_reverse]

theorem getD_trim (words : List (BitVec 64)) (w : Nat) :
    (trim words).getD w 0 = words.getD w 0 := by
  obtain ⟨n, hn⟩ := exists_append_replicate words
  conv_rhs => rw [hn]
  simp only [List.getD_eq_getElem?_getD, List.getElem?_append, List.getElem?_replicate]
  split
  · rfl
  · next hw =>
    rw [List.getElem?_eq_none (Nat.le_of_not_lt hw)]
    split <;> rfl

theorem trim_eq_self (h : words.getLast? ≠ some 0) : trim words = words := by
  obtain ⟨n, hn⟩ := exists_append_replicate words
  cases n with
  | zero => simpa using hn.symm
  | succ n =>
    rw [hn, List.replicate_succ', ← List.append_assoc, List.getLast?_concat] at h
    exact absurd rfl h

theorem getD_modifyWord (f : BitVec 64 → BitVec 64) (w v : Nat) (words : List (BitVec 64)) :
    (modifyWord f w words).getD v 0 = if v = w then f (words.getD w 0) else words.getD v 0 := by
  induction w, words using modifyWord.induct generalizing v with
  | case1 => cases v <;> rfl
  | case2 x xs => cases v <;> rfl
  | case3 w ih =>
    cases v with
    | zero => rfl
    | succ v => simpa [modifyWord] using ih v
  | case4 w x xs ih =>
    cases v with
    | zero => rfl
    | succ v => simpa [modifyWord] using ih v

theorem modifyWord_ne_nil (f : BitVec 64 → BitVec 64) (w : Nat) (words : List (BitVec 64)) :
    modifyWord f w words ≠ [] := by
  cases w <;> cases words <;> nofun

/-- A word that is not zero may come last, so changing a word to one leaves nothing to trim. -/
theorem getLast?_modifyWord {f : BitVec 64 → BitVec 64} (hf : ∀ x, f x ≠ 0) (w : Nat)
    (h : words.getLast? ≠ some 0) : (modifyWord f w words).getLast? ≠ some 0 := by
  induction w, words using modifyWord.induct with
  | case1 => simpa [modifyWord] using hf 0
  | case2 x xs =>
    cases xs with
    | nil => simpa [modifyWord] using hf x
    | cons y ys => simpa [modifyWord] using h
  | case3 w ih =>
    rw [modifyWord, List.getLast?_cons_of_ne_nil (modifyWord_ne_nil f w [])]
    exact ih nofun
  | case4 w x xs ih =>
    rw [modifyWord, List.getLast?_cons_of_ne_nil (modifyWord_ne_nil f w xs)]
    refine ih ?_
    cases xs with
    | nil => nofun
    | cons y ys => simpa using h

/-- Words without zeros at their end are determined by what is found in each place. -/
theorem eq_of_getD {xs ys : List (BitVec 64)} (hx : xs.getLast? ≠ some 0)
    (hy : ys.getLast? ≠ some 0) (h : ∀ w, xs.getD w 0 = ys.getD w 0) : xs = ys := by
  have hle {xs ys : List (BitVec 64)} (hy : ys.getLast? ≠ some 0)
      (h : ∀ w, xs.getD w 0 = ys.getD w 0) : ys.length ≤ xs.length := by
    by_contra hlt
    refine hy ?_
    have hlast := h (ys.length - 1)
    rw [List.getD_eq_default _ _ (by omega), List.getD_eq_getElem _ _ (by omega)] at hlast
    rw [List.getLast?_eq_getElem?, List.getElem?_eq_getElem (by omega), ← hlast]
  refine List.ext_getElem (Nat.le_antisymm (hle hx fun w => (h w).symm) (hle hy h)) ?_
  intro w hw hw'
  rw [← List.getD_eq_getElem xs 0 hw, ← List.getD_eq_getElem ys 0 hw', h w]

/-! ## Operations -/

/-- Sets are the same as stored once they hold the same indices. -/
theorem ext_contains (h : ∀ i, s.contains i = t.contains i) : s = t := by
  obtain ⟨xs, hx⟩ := s
  obtain ⟨ys, hy⟩ := t
  have hwords (w : Nat) : xs.getD w 0 = ys.getD w 0 := by
    refine BitVec.eq_of_getLsbD_eq fun i hi => ?_
    have hbit := h (64 * w + i)
    rw [contains_eq_bit, contains_eq_bit, bit, bit] at hbit
    rwa [show (64 * w + i) / 64 = w by omega, show (64 * w + i) % 64 = i by omega] at hbit
  simp only [eq_of_getD hx hy hwords]

theorem contains_ofWords (words : List (BitVec 64)) (i : Nat) :
    (ofWords words).contains i = bit words i := by
  rw [contains_eq_bit, ofWords, bit, getD_trim, bit]

theorem contains_empty (i : Nat) : empty.contains i = false := rfl

theorem or_mask_ne_zero (x : BitVec 64) (i : Nat) : x ||| mask (i % 64) ≠ 0 := by
  have hi : i % 64 < 64 := Nat.mod_lt i (by decide)
  intro hzero
  have hbit : (x ||| mask (i % 64)).getLsbD (i % 64) = (0#64).getLsbD (i % 64) := by
    rw [hzero]
    rfl
  simp [mask, hi] at hbit

/-- A new index leaves nothing to trim. -/
theorem words_insert (s : BitSet) (i : Nat) :
    (s.insert i).words = modifyWord (· ||| mask (i % 64)) (i / 64) s.words :=
  trim_eq_self (getLast?_modifyWord (fun x => or_mask_ne_zero x i) (i / 64) s.trimmed)

theorem contains_insert (s : BitSet) (i j : Nat) :
    (s.insert i).contains j = (decide (j = i) || s.contains j) := by
  have hi : i % 64 < 64 := Nat.mod_lt i (by decide)
  rw [contains_eq_bit, words_insert, bit, getD_modifyWord, contains_eq_bit, bit]
  by_cases hw : j / 64 = i / 64
  · have hji : i % 64 = j % 64 ↔ j = i := by omega
    rw [if_pos hw, ← hw, BitVec.getLsbD_or, mask, BitVec.getLsbD_twoPow, Bool.or_comm]
    simp [hi, hji]
  · have hji : j ≠ i := fun h => hw (h ▸ rfl)
    simp [hw, hji]

theorem getD_modify (f : BitVec 64 → BitVec 64) (w v : Nat) (hw : w < words.length) :
    (words.modify w f).getD v 0 = if v = w then f (words.getD w 0) else words.getD v 0 := by
  rw [List.getD_eq_getElem?_getD, List.getElem?_modify, List.getD_eq_getElem?_getD,
    List.getD_eq_getElem?_getD]
  by_cases hv : v = w
  · subst hv
    simp [List.getElem?_eq_getElem hw]
  · simp [hv, Ne.symm hv]

theorem contains_erase (s : BitSet) (i j : Nat) :
    (s.erase i).contains j = (decide (j ≠ i) && s.contains j) := by
  have hi : i % 64 < 64 := Nat.mod_lt i (by decide)
  have hj : j % 64 < 64 := Nat.mod_lt j (by decide)
  rw [erase]
  split
  case isTrue hw =>
    rw [contains_ofWords, contains_eq_bit, bit, getD_modify _ _ _ hw, bit]
    by_cases hv : j / 64 = i / 64
    · have hji : i % 64 = j % 64 ↔ j = i := by omega
      rw [if_pos hv, ← hv, BitVec.getLsbD_and, BitVec.getLsbD_not, mask, BitVec.getLsbD_twoPow,
        Bool.and_comm]
      simp [hi, hj, hji]
    · have hji : j ≠ i := fun h => hv (h ▸ rfl)
      simp [hv, hji]
  case isFalse hw =>
    by_cases hji : j = i
    · subst hji
      rw [contains_eq_bit, bit, List.getD_eq_default _ _ (Nat.le_of_not_lt hw)]
      simp
    · simp [hji]

theorem contains_insertAll (s : BitSet) (indices : List Nat) (j : Nat) :
    (s.insertAll indices).contains j = (decide (j ∈ indices) || s.contains j) := by
  induction indices generalizing s with
  | nil => simp [insertAll]
  | cons i indices ih =>
    have hnext : s.insertAll (i :: indices) = (s.insert i).insertAll indices := rfl
    rw [hnext, ih, contains_insert]
    by_cases hji : j = i
    · simp [hji]
    · simp [hji]

/-! ## The indices in order -/

theorem mem_wordIndices (x : BitVec 64) (i : Nat) : i ∈ wordIndices x ↔ x.getLsbD i = true := by
  rw [wordIndices, List.mem_filter, List.mem_range]
  exact ⟨And.right, fun h => ⟨BitVec.lt_of_getLsbD h, h⟩⟩

theorem pairwise_wordIndices (x : BitVec 64) : (wordIndices x).Pairwise (· < ·) :=
  List.pairwise_lt_range.filter _

/-- The indices of words, of which the first is word `w`. -/
def indicesFrom (w : Nat) (words : List (BitVec 64)) : List Nat :=
  (words.zipIdx w).flatMap fun (x, w) => (wordIndices x).map (w * 64 + ·)

theorem indicesFrom_cons (w : Nat) (x : BitVec 64) (words : List (BitVec 64)) :
    indicesFrom w (x :: words) =
      (wordIndices x).map (w * 64 + ·) ++ indicesFrom (w + 1) words := rfl

theorem mem_indicesFrom (w : Nat) (words : List (BitVec 64)) (i : Nat) :
    i ∈ indicesFrom w words ↔ w ≤ i / 64 ∧ (words.getD (i / 64 - w) 0).getLsbD (i % 64) = true := by
  induction words generalizing w with
  | nil => simp [indicesFrom]
  | cons x words ih =>
    have hword : i ∈ (wordIndices x).map (w * 64 + ·) ↔
        i / 64 = w ∧ x.getLsbD (i % 64) = true := by
      simp only [List.mem_map, mem_wordIndices]
      constructor
      · rintro ⟨j, hj, rfl⟩
        have := BitVec.lt_of_getLsbD hj
        rw [show (w * 64 + j) / 64 = w by omega, show (w * 64 + j) % 64 = j by omega]
        exact ⟨rfl, hj⟩
      · rintro ⟨rfl, hj⟩
        exact ⟨i % 64, hj, by omega⟩
    rw [indicesFrom_cons, List.mem_append, hword, ih]
    rcases Nat.lt_trichotomy (i / 64) w with hlt | rfl | hlt
    · simp [Nat.ne_of_lt hlt, Nat.not_le_of_lt hlt, Nat.not_le_of_lt (Nat.lt_succ_of_lt hlt)]
    · simp
    · obtain ⟨d, hd⟩ := Nat.exists_eq_add_of_lt hlt
      rw [hd, show w + d + 1 - w = d + 1 by omega, show w + d + 1 - (w + 1) = d by omega,
        List.getD_cons_succ]
      simp [show w + d + 1 ≠ w by omega, show w ≤ w + d + 1 by omega,
        show w + 1 ≤ w + d + 1 by omega]

theorem pairwise_indicesFrom (w : Nat) (words : List (BitVec 64)) :
    (indicesFrom w words).Pairwise (· < ·) := by
  induction words generalizing w with
  | nil => exact .nil
  | cons x words ih =>
    rw [indicesFrom_cons, List.pairwise_append]
    refine ⟨?_, ih (w + 1), fun i hi j hj => ?_⟩
    · rw [List.pairwise_map]
      exact (pairwise_wordIndices x).imp fun h => Nat.add_lt_add_left h _
    · obtain ⟨k, hk, rfl⟩ := List.mem_map.mp hi
      have hlt := BitVec.lt_of_getLsbD ((mem_wordIndices x k).mp hk)
      have hle := ((mem_indicesFrom (w + 1) words j).mp hj).1
      omega

theorem length_indicesFrom (w : Nat) (words : List (BitVec 64)) :
    (indicesFrom w words).length =
      words.foldr (fun x n => (wordIndices x).length + n) 0 := by
  induction words generalizing w with
  | nil => rfl
  | cons x words ih =>
    rw [indicesFrom_cons, List.length_append, List.length_map, ih, List.foldr_cons]

theorem mem_toList (s : BitSet) (i : Nat) : i ∈ s.toList ↔ s.contains i = true := by
  have hmem := mem_indicesFrom 0 s.words i
  rw [contains_eq_bit]
  exact hmem.trans (and_iff_right (Nat.zero_le _))

theorem pairwise_toList (s : BitSet) : s.toList.Pairwise (· < ·) := pairwise_indicesFrom 0 s.words

theorem length_toList (s : BitSet) : s.toList.length = s.size := length_indicesFrom 0 s.words

theorem isEmpty_iff (s : BitSet) : s.isEmpty = true ↔ ∀ i, s.contains i = false := by
  rw [isEmpty, List.isEmpty_iff]
  constructor
  · intro hwords i
    rw [contains_eq_bit, hwords]
    simp [bit]
  · intro hnone
    have hempty : s = empty := ext_contains fun i => (hnone i).trans (contains_empty i).symm
    rw [hempty]
    rfl

/-! ## Words that are read -/

/-- The bytes of words: their number, and each word from its last byte to its first. -/
def wordBytes (words : List (BitVec 64)) : Bytes :=
  LittleEndian.toBytes 4 words.length ++ words.flatMap fun x => LittleEndian.toBytes 8 x.toNat

theorem emission_words (part : Message → Emission) {words : List (BitVec 64)}
    (hlength : words.length ≤ Encode.maxLength) :
    (Emission.ofList part (some (words.map Item.ofWord))).failure = none ∧
      (Emission.ofList part (some (words.map Item.ofWord))).bytes = wordBytes words := by
  have heach : (Emission.each (.ofItem part) (words.map Item.ofWord)).failure = none ∧
      (Emission.each (.ofItem part) (words.map Item.ofWord)).bytes =
        words.flatMap fun x => LittleEndian.toBytes 8 x.toNat := by
    induction words with
    | nil => exact ⟨rfl, rfl⟩
    | cons x words ih =>
      rw [List.length_cons] at hlength
      obtain ⟨hnone, hbytes⟩ := ih (Nat.le_of_succ_le hlength)
      have hword : (Emission.ofItem part (Item.ofWord x)).failure = none := rfl
      rw [List.map_cons, Emission.each, Emission.failure_andThen hword,
        Emission.bytes_andThen hword, hnone, hbytes, List.flatMap_cons]
      exact ⟨rfl, congrArg (· ++ _) (Emission.bytes_whole _)⟩
  have hcount : Layout.length (words.map Item.ofWord).length =
      .ok (LittleEndian.toBytes 4 words.length) := by
    rw [List.length_map, Layout.length_of_le hlength]
  rw [Emission.ofList, hcount, Emission.ofResult, Emission.failure_andThen rfl,
    Emission.bytes_andThen rfl, heach.1, heach.2, Emission.bytes_whole]
  exact ⟨rfl, rfl⟩

/-- A bit set is read from any words, with zeros at their end or without. -/
theorem takes_words (ctx : ReadContext) (nested : Schema → Read Message) (isOptional : Bool)
    (fields : List Field) {words : List (BitVec 64)} (hlength : words.length ≤ ctx.limit) :
    ∃ progress, Read.Takes ⟨fields, default⟩ (Read.field ctx nested (.bits isOptional))
      (wordBytes words) (.bits (some (ofWords words))) ⟨fields, progress⟩ := by
  have hnothing : Read.ReadsBack 0 (fun _ _ => False) nested fun _ => .empty :=
    fun _ _ h => h.elim
  obtain ⟨hnone, hbytes⟩ :=
    emission_words (fun _ => .empty) (Nat.le_trans hlength ctx.limit_le)
  obtain ⟨progress, hlist⟩ : ∃ progress, Read.Undoes 0 ⟨fields, default⟩
      (Read.list ctx nested (.primitive (.int .w64 .unsigned)))
      (.ofList (fun _ => .empty) (some (words.map Item.ofWord)))
      (some (words.map Item.ofWord)) ⟨fields, progress⟩ :=
    Read.undoes_words hnothing hlength fields
  have htakes := hlist.takes hnone
  rw [hbytes] at htakes
  refine ⟨progress, htakes.bind_nil ?_⟩
  simp only [Option.map_some, Item.filterMap_word?]
  have hpresent : some (ofWords words) = none → isOptional = true := nofun
  exact (Read.takes_optional hpresent _).map Field.bits

/-! ## Calls -/

/-- A call that changes a set or builds it anew. -/
inductive Call where
  | insert (i : Nat)
  | remove (i : Nat)
  | extend (indices : List Nat)
  | collect (indices : List Nat)
  | fromWords (words : List (BitVec 64))

/-- What a mask shows of a word, which is zero where there is none yet. -/
def isSet (words : List (BitVec 64)) (i : Nat) : Bool :=
  words.getD (i / 64) 0 &&& mask (i % 64) != 0

/-- Makes a call. An insertion answers whether the index was not set, and a removal whether it
was. -/
def call (s : BitSet) : Call → Option Bool × BitSet
  | .insert i => (some (!isSet s.words i), s.insert i)
  | .remove i => (some (isSet s.words i), s.erase i)
  | .extend indices => (none, s.insertAll indices)
  | .collect indices => (none, ofList indices)
  | .fromWords words => (none, ofWords words)

/-- What a call makes of the indices that it finds: bit `i` of word `w` is index `64 * w + i`. -/
def Call.described : Call → Set Nat → Set Nat
  | .insert i, S => S ∪ {i}
  | .remove i, S => S \ {i}
  | .extend indices, S => S ∪ {i | i ∈ indices}
  | .collect indices, _ => {i | i ∈ indices}
  | .fromWords words, _ =>
    {n | ∃ w i x, words[w]? = some x ∧ i < 64 ∧ x.getLsbD i = true ∧ n = 64 * w + i}

/-- The indices that calls describe, beginning with none. -/
def described (calls : List Call) : Set Nat := calls.foldl (fun S c => c.described S) ∅

/-- A set holds just these indices. -/
def Holds (s : BitSet) (S : Set Nat) : Prop := ∀ i, s.contains i = true ↔ i ∈ S

theorem isSet_eq_contains (s : BitSet) (i : Nat) : isSet s.words i = s.contains i := by
  rw [isSet, and_mask_ne_zero _ (Nat.mod_lt i (by decide)), contains_eq_bit, bit]

theorem bit_eq_true_iff (words : List (BitVec 64)) (n : Nat) : bit words n = true ↔
    ∃ w i x, words[w]? = some x ∧ i < 64 ∧ x.getLsbD i = true ∧ n = 64 * w + i := by
  rw [bit, List.getD_eq_getElem?_getD]
  constructor
  · intro h
    cases hx : words[n / 64]? with
    | none => simp [hx] at h
    | some x =>
      rw [hx] at h
      exact ⟨n / 64, n % 64, x, hx, Nat.mod_lt n (by decide), h, by omega⟩
  · rintro ⟨w, i, x, hx, hi, hbit, rfl⟩
    rw [show (64 * w + i) / 64 = w by omega, show (64 * w + i) % 64 = i by omega, hx]
    exact hbit

variable {S : Set Nat}

theorem holds_empty : empty.Holds ∅ := fun i => by simp [contains_empty]

theorem Holds.call (h : s.Holds S) (c : Call) : (s.call c).2.Holds (c.described S) := by
  intro j
  have hj := h j
  cases c with
  | insert i => simp [BitSet.call, Call.described, contains_insert, hj]
  | remove i => simp [BitSet.call, Call.described, contains_erase, hj, and_comm]
  | extend indices => simp [BitSet.call, Call.described, contains_insertAll, hj, or_comm]
  | collect indices =>
    simp [BitSet.call, Call.described, ofList, contains_insertAll, contains_empty]
  | fromWords words =>
    rw [BitSet.call, contains_ofWords, bit_eq_true_iff]
    rfl

theorem holds_afterCalls (calls : List Call) :
    (afterCalls call empty calls).Holds (described calls) := by
  have hfrom {s : BitSet} {S : Set Nat} (h : s.Holds S) (calls : List Call) :
      (afterCalls BitSet.call s calls).Holds (calls.foldl (fun S c => c.described S) S) := by
    induction calls generalizing s S with
    | nil => exact h
    | cons c calls ih => exact ih (h.call c)
  exact hfrom holds_empty calls

theorem Holds.ncard (h : s.Holds S) : s.size = S.ncard := by
  have hS : S = ↑s.toList.toFinset := by
    ext i
    simp [mem_toList, h i]
  rw [hS, Set.ncard_coe_finset, List.toFinset_card_of_nodup s.pairwise_toList.nodup,
    length_toList]

theorem Holds.isEmpty_iff (h : s.Holds S) : s.isEmpty = true ↔ S = ∅ := by
  rw [BitSet.isEmpty_iff, Set.eq_empty_iff_forall_notMem]
  exact forall_congr' fun i => by rw [← h i, Bool.not_eq_true]

theorem Holds.eq_iff {T : Set Nat} (h : s.Holds S) (ht : t.Holds T) : t = s ↔ T = S := by
  constructor
  · rintro rfl
    ext i
    rw [← ht i, h i]
  · rintro rfl
    exact ext_contains fun i => Bool.eq_iff_iff.mpr ((ht i).trans (h i).symm)

/-- A bit set is a finite set of indices. Whatever calls have built it, it holds what the calls
describe, in words of which the last is never zero, though an insertion changes just one word and
trims nothing. Insertions and removals answer whether they change the set. Its size, whether it is
empty, and its indices in order are those of the set, and equal sets have equal words. One that is
read, from words with or without zeros at their end, is the set that these words describe. -/
theorem indices_after_calls (calls : List Call) :
    let s := afterCalls call empty calls
    let S := described calls
    (s.words.getLast? ≠ some 0 ∧
      ∀ i, (s.insert i).words = modifyWord (· ||| mask (i % 64)) (i / 64) s.words) ∧
    (∀ i, s.contains i = true ↔ i ∈ S) ∧
    (∀ i, ∃ changed, (s.call (.insert i)).1 = some changed ∧
      (changed = true ↔ (Call.insert i).described S ≠ S)) ∧
    (∀ i, ∃ changed, (s.call (.remove i)).1 = some changed ∧
      (changed = true ↔ (Call.remove i).described S ≠ S)) ∧
    s.size = S.ncard ∧ (s.isEmpty = true ↔ S = ∅) ∧
    s.toList.Pairwise (· < ·) ∧ (∀ i, i ∈ s.toList ↔ i ∈ S) ∧
    (∀ others, afterCalls call empty others = s ↔ described others = S) ∧
    ∀ (ctx : ReadContext) nested isOptional fields words, words.length ≤ ctx.limit →
      ∃ progress, Read.Takes ⟨fields, default⟩ (Read.field ctx nested (.bits isOptional))
        (wordBytes words) (.bits (some (s.call (.fromWords words)).2)) ⟨fields, progress⟩ := by
  intro s S
  have h : s.Holds S := holds_afterCalls calls
  refine ⟨⟨s.trimmed, s.words_insert⟩, h, fun i => ⟨_, rfl, ?_⟩, fun i => ⟨_, rfl, ?_⟩, h.ncard,
    h.isEmpty_iff, s.pairwise_toList, fun i => (s.mem_toList i).trans (h i),
    fun others => h.eq_iff (holds_afterCalls others), ?_⟩
  · rw [isSet_eq_contains, Call.described, ne_eq, Set.union_eq_left, Set.singleton_subset_iff,
      ← h i, Bool.not_eq_true, Bool.not_eq_true']
  · rw [isSet_eq_contains, Call.described, ne_eq, sdiff_eq_left, Set.disjoint_singleton_right,
      ← h i]
    simp
  · intro ctx nested isOptional fields words hlength
    exact takes_words ctx nested isOptional fields hlength

/-- The last word is emptied and goes, and with it the zero word before it. -/
theorem indices_after_calls_trimmed :
    let calls : List Call := [.extend [3, 130], .insert 130, .remove 130]
    let ctx : ReadContext := ⟨.ofConfig {} .empty, fun _ => [], .empty⟩
    let nested : Schema → Read Message := fun _ => Read.fail .nullRoot
    ([8, 0, 0] : List (BitVec 64)).length ≤ ctx.limit ∧
      (∀ i, (afterCalls call empty calls).contains i = true ↔ i ∈ described calls) ∧
      ∃ progress, Read.Takes ⟨[], default⟩ (Read.field ctx nested (.bits false))
        (wordBytes [8, 0, 0])
        (.bits (some ((afterCalls call empty calls).call (.fromWords [8, 0, 0])).2))
        ⟨[], progress⟩ := by
  intro calls ctx nested
  have hlength : ([8, 0, 0] : List (BitVec 64)).length ≤ ctx.limit := by decide
  obtain ⟨-, hcontains, -, -, -, -, -, -, -, hread⟩ := indices_after_calls calls
  exact ⟨hlength, hcontains, hread ctx nested false [] [8, 0, 0] hlength⟩

end BitSet

end WireCodec
