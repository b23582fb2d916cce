import Mathlib.Data.List.Forall2
import WireCodec.Proofs.Decoding.Contents
import WireCodec.Proofs.Failing

/-!
# Modified UTF-8, group by group

What bytes are as text is told group by group: a group is one, two or three bytes whose free bits,
put together, are the number of a UTF-16 unit. Bytes are read exactly if they split into such groups
and the units are those of a text (`decode_eq_ok_iff_splits`). A unit has groups of several lengths;
the writer takes the shortest, and for the unit zero the one that has no zero byte in it.
-/

namespace WireCodec

namespace ModifiedUtf8

open Utf16 (CodeUnit)

/-! ## Groups -/

/-- The bytes of a group, and the unit that they stand for. -/
inductive Group : Bytes → CodeUnit → Prop where
  /-- `0xxxxxxx` -/
  | one {x : Nat} (hx : x < 0x80) : Group [UInt8.ofNat x] (BitVec.ofNat 16 x)
  /-- `110xxxxx 10yyyyyy` -/
  | two {x y : Nat} (hx : x < 0x20) (hy : y < 0x40) :
    Group [UInt8.ofNat (0b11000000 + x), UInt8.ofNat (0b10000000 + y)]
      (BitVec.ofNat 16 (x * 0x40 + y))
  /-- `1110xxxx 10yyyyyy 10zzzzzz` -/
  | three {x y z : Nat} (hx : x < 0x10) (hy : y < 0x40) (hz : z < 0x40) :
    Group [UInt8.ofNat (0b11100000 + x), UInt8.ofNat (0b10000000 + y), UInt8.ofNat (0b10000000 + z)]
      (BitVec.ofNat 16 (x * 0x1000 + y * 0x40 + z))

/-- Of the groups of a unit the one that is written: the shortest, but for the unit zero the one of
two bytes. -/
def Shortest (g : Bytes) (u : CodeUnit) : Prop :=
  if u = 0 then g = [0xC0, 0x80] else Group g u ∧ ∀ g', Group g' u → g.length ≤ g'.length

/-- Bytes are these groups one after the other, and the groups stand for the units of a text. -/
structure Splits (bs : Bytes) (gs : List Bytes) (s : String) : Prop where
  flatten : gs.flatten = bs
  groups : List.Forall₂ Group gs (Utf16.encode s.toList)

variable {g g' bs cs : Bytes} {u u' : CodeUnit} {gs gs' : List Bytes} {s : String} {n offset : Nat}

theorem toNat_byte (h : n < 0x100) : (UInt8.ofNat n).toNat = n := by
  rw [UInt8.toNat_ofNat']
  exact Nat.mod_eq_of_lt h

theorem toNat_codeUnit (h : n < 0x10000) : (BitVec.ofNat 16 n).toNat = n := by
  rw [BitVec.toNat_ofNat]
  exact Nat.mod_eq_of_lt h

theorem group_encodeUnit (u : CodeUnit) : Group (encodeUnit u) u := by
  have hu := u.isLt
  rw [encodeUnit]
  split
  case isTrue h =>
    have hone := Group.one h.2
    rwa [BitVec.ofNat_toNat, BitVec.setWidth_eq] at hone
  case isFalse h =>
    split
    case isTrue h' =>
      have htwo := Group.two (x := u.toNat / 0x40) (y := u.toNat % 0x40) (by omega) (by omega)
      have hvalue : u.toNat / 0x40 * 0x40 + u.toNat % 0x40 = u.toNat := by omega
      rwa [hvalue, BitVec.ofNat_toNat, BitVec.setWidth_eq] at htwo
    case isFalse h' =>
      have hthree := Group.three (x := u.toNat / 0x1000) (y := u.toNat / 0x40 % 0x40)
        (z := u.toNat % 0x40) (by omega) (by omega) (by omega)
      have hvalue : u.toNat / 0x1000 * 0x1000 + u.toNat / 0x40 % 0x40 * 0x40 + u.toNat % 0x40 =
          u.toNat := by omega
      rwa [hvalue, BitVec.ofNat_toNat, BitVec.setWidth_eq] at hthree

/-- The first byte tells how long a group is. -/
theorem Group.length_eq {b : UInt8} (h : Group (b :: g) u) :
    (b :: g).length = if b.toNat < 0x80 then 1 else if b.toNat < 0xE0 then 2 else 3 := by
  cases h with
  | one hx => rw [toNat_byte (by omega), if_pos hx]; rfl
  | two hx hy => rw [toNat_byte (by omega), if_neg (by omega), if_pos (by omega)]; rfl
  | three hx hy hz => rw [toNat_byte (by omega), if_neg (by omega), if_neg (by omega)]; rfl

theorem Group.ne_nil (h : Group g u) : g ≠ [] := by
  cases h <;> exact List.cons_ne_nil _ _

/-- Groups cannot be taken for each other's beginning. -/
theorem Group.append_inj (h : Group g u) (h' : Group g' u') (heq : g ++ bs = g' ++ cs) :
    g = g' ∧ bs = cs := by
  obtain ⟨b, rest, rfl⟩ := List.exists_cons_of_ne_nil h.ne_nil
  obtain ⟨b', rest', rfl⟩ := List.exists_cons_of_ne_nil h'.ne_nil
  obtain rfl : b = b' := (List.cons.inj heq).1
  exact List.append_inj heq (h.length_eq.trans h'.length_eq.symm)

/-- No group of a unit is shorter than the one that is written, but for the unit zero. -/
theorem Group.unitLength_le (h : Group g u) (hu : u ≠ 0) : unitLength u ≤ g.length := by
  have hpos : 0 < u.toNat := Nat.pos_of_ne_zero fun hzero => hu (BitVec.eq_of_toNat_eq hzero)
  rw [unitLength]
  cases h with
  | one hx =>
    rw [toNat_codeUnit (by omega)] at hpos ⊢
    rw [if_pos ⟨hpos, hx⟩]
    exact Nat.le_refl 1
  | two hx hy =>
    rw [toNat_codeUnit (by omega)]
    split
    · exact Nat.le_succ 1
    · rw [if_pos (by omega)]
      exact Nat.le_refl 2
  | three hx hy hz =>
    split
    · exact (by decide : 1 ≤ 3)
    · split
      · exact Nat.le_succ 2
      · exact Nat.le_refl 3

theorem length_encodeUnit (u : CodeUnit) : (encodeUnit u).length = unitLength u := by
  rw [encodeUnit, unitLength]
  split
  · rfl
  · split <;> rfl

/-- A unit has one group of each length. -/
theorem Group.eq_of_length_eq (h : Group g u) (h' : Group g' u) (hlength : g.length = g'.length) :
    g = g' := by
  generalize hu : u = v at h'
  replace hu := congrArg BitVec.toNat hu
  cases h with
  | @one x hx =>
    cases h' with
    | @one x' hx' =>
      rw [toNat_codeUnit (by omega), toNat_codeUnit (by omega)] at hu
      rw [hu]
    | _ => cases hlength
  | @two x y hx hy =>
    cases h' with
    | @two x' y' hx' hy' =>
      rw [toNat_codeUnit (by omega), toNat_codeUnit (by omega)] at hu
      obtain ⟨rfl, rfl⟩ : x = x' ∧ y = y' := by omega
      rfl
    | _ => cases hlength
  | @three x y z hx hy hz =>
    cases h' with
    | @three x' y' z' hx' hy' hz' =>
      rw [toNat_codeUnit (by omega), toNat_codeUnit (by omega)] at hu
      obtain ⟨rfl, rfl, rfl⟩ : x = x' ∧ y = y' ∧ z = z' := by omega
      rfl
    | _ => cases hlength

/-- What is written of a unit is the one of its groups that is meant to be. -/
theorem Group.shortest_iff (h : Group g u) : Shortest g u ↔ encodeUnit u = g := by
  rw [Shortest]
  split
  case isTrue hu =>
    subst hu
    exact eq_comm
  case isFalse hu =>
    have hwritten := group_encodeUnit u
    have hle {g : Bytes} (hg : Group g u) : (encodeUnit u).length ≤ g.length := by
      rw [length_encodeUnit]
      exact hg.unitLength_le hu
    constructor
    · rintro ⟨-, hshort⟩
      exact hwritten.eq_of_length_eq h (Nat.le_antisymm (hle h) (hshort _ hwritten))
    · rintro rfl
      exact ⟨h, fun g' hg' => hle hg'⟩

/-! ## Bytes that are read -/

theorem continuation_eq_ok_iff {b : UInt8} {x : Nat} :
    continuation offset b = .ok x ↔ x < 0x40 ∧ b = UInt8.ofNat (0b10000000 + x) := by
  have hb := b.toNat_lt
  rw [continuation]
  constructor
  · intro h
    split at h <;> cases h
    have hlead : 0b10000000 + b.toNat % 0x40 = b.toNat := by omega
    exact ⟨Nat.mod_lt _ (by decide), by rw [hlead, UInt8.ofNat_toNat]⟩
  · rintro ⟨hx, rfl⟩
    rw [toNat_byte (by omega), if_pos (by omega)]
    exact congrArg Except.ok (by omega)

/-- A group is read as its unit, whatever follows it. -/
theorem Group.decodeUnits_append (h : Group g u) (offset : Nat) (more : Bytes) :
    decodeUnits offset (g ++ more) = (u :: ·) <$> decodeUnits (offset + g.length) more := by
  cases h with
  | one hx =>
    rw [List.singleton_append, decodeUnits.eq_def]
    simp only [toNat_byte (Nat.lt_trans hx (by decide)), if_pos hx]
    rfl
  | @two x y hx hy =>
    have hvalue : (0b11000000 + x) % 0x20 * 0x40 + y = x * 0x40 + y := by omega
    simp only [List.cons_append, List.nil_append, decodeUnits,
      toNat_byte (n := 0b11000000 + x) (by omega), continuation_eq_ok_iff.mpr ⟨hy, rfl⟩]
    rw [if_neg (by omega), if_pos (by omega)]
    simp only [bind, Except.bind, hvalue]
    rfl
  | @three x y z hx hy hz =>
    have hvalue : (0b11100000 + x) % 0x10 * 0x1000 + y * 0x40 + z =
        x * 0x1000 + y * 0x40 + z := by omega
    simp only [List.cons_append, List.nil_append, decodeUnits,
      toNat_byte (n := 0b11100000 + x) (by omega), continuation_eq_ok_iff.mpr ⟨hy, rfl⟩,
      continuation_eq_ok_iff.mpr ⟨hz, rfl⟩]
    rw [if_neg (by omega), if_neg (by omega), if_pos (by omega)]
    simp only [bind, Except.bind, hvalue]
    rfl

theorem decodeUnits_flatten {us : List CodeUnit} (h : List.Forall₂ Group gs us) (offset : Nat) :
    decodeUnits offset gs.flatten = .ok us := by
  induction h generalizing offset with
  | nil => rfl
  | cons hg hgs ih =>
    rw [List.flatten_cons, hg.decodeUnits_append, ih]
    rfl

/-- All that is read splits into groups. -/
theorem exists_groups_of_decodeUnits {us : List CodeUnit} (h : decodeUnits offset bs = .ok us) :
    ∃ gs, gs.flatten = bs ∧ List.Forall₂ Group gs us := by
  have hgroup {g bs : Bytes} {u : CodeUnit} {us : List CodeUnit} (hg : Group g u)
      (hgs : ∃ gs : List Bytes, gs.flatten = bs ∧ List.Forall₂ Group gs us) :
      ∃ gs : List Bytes, gs.flatten = g ++ bs ∧ List.Forall₂ Group gs (u :: us) := by
    obtain ⟨gs, rfl, hgs⟩ := hgs
    exact ⟨g :: gs, List.flatten_cons, .cons hg hgs⟩
  fun_induction decodeUnits offset bs generalizing us with
  | case1 => cases h; exact ⟨[], rfl, .nil⟩
  | case2 _ b _ n hn =>
    rename_i ih
    simp only [Encode.bind_eq_ok, Encode.pure_eq_ok] at h
    obtain ⟨us, hus, rfl⟩ := h
    have hone := Group.one hn
    rw [UInt8.ofNat_toNat] at hone
    exact hgroup hone (ih hus)
  | case4 _ b n hn hlead c cs =>
    rename_i ih
    simp only [Encode.bind_eq_ok, Encode.pure_eq_ok] at h
    obtain ⟨x, hc, us, hus, rfl⟩ := h
    obtain ⟨hx, rfl⟩ := continuation_eq_ok_iff.mp hc
    have htwo := Group.two (Nat.mod_lt n (by decide : 0x20 > 0)) hx
    have hbyte : 0b11000000 + n % 0x20 = b.toNat := by omega
    rw [hbyte, UInt8.ofNat_toNat] at htwo
    exact hgroup htwo (ih hus)
  | case6 _ b n hn hn' hlead c cs =>
    rename_i ih
    obtain ⟨x, hc, htail⟩ := Encode.bind_eq_ok.mp h
    cases cs with
    | nil => cases htail
    | cons d ds =>
      simp only [Encode.bind_eq_ok, Encode.pure_eq_ok] at htail
      obtain ⟨y, hd, us, hus, rfl⟩ := htail
      obtain ⟨hx, rfl⟩ := continuation_eq_ok_iff.mp hc
      obtain ⟨hy, rfl⟩ := continuation_eq_ok_iff.mp hd
      have hthree := Group.three (Nat.mod_lt n (by decide : 0x10 > 0)) hx hy
      have hbyte : 0b11100000 + n % 0x10 = b.toNat := by omega
      rw [hbyte, UInt8.ofNat_toNat] at hthree
      exact hgroup hthree (ih hus)
  | _ => cases h

theorem decodeUnits_eq_ok_iff {us : List CodeUnit} : decodeUnits offset bs = .ok us ↔
    ∃ gs, gs.flatten = bs ∧ List.Forall₂ Group gs us := by
  constructor
  · exact exists_groups_of_decodeUnits
  · rintro ⟨gs, rfl, hgs⟩
    exact decodeUnits_flatten hgs offset

/-! ## Texts -/

theorem decode_eq_ok_iff_splits : decode bs = .ok s ↔ ∃ gs, Splits bs gs s := by
  constructor
  · intro h
    obtain ⟨us, hus, h⟩ := Encode.bind_eq_ok.mp h
    cases hcs : Utf16.decode us with
    | none => rw [hcs] at h; cases h
    | some cs =>
      rw [hcs] at h
      cases h
      obtain ⟨gs, hflatten, hgs⟩ := decodeUnits_eq_ok_iff.mp hus
      refine ⟨gs, hflatten, ?_⟩
      rwa [String.toList_ofList, Utf16.encode_of_decode hcs]
  · rintro ⟨gs, hflatten, hgs⟩
    subst hflatten
    have hus := decodeUnits_flatten hgs 0
    simp only [decode, hus, bind, Except.bind, Utf16.decode_encode, String.ofList_toList]
    rfl

/-- Bytes split in one way. -/
theorem groups_unique {us us' : List CodeUnit} (h : List.Forall₂ Group gs us)
    (h' : List.Forall₂ Group gs' us') (heq : gs.flatten = gs'.flatten) : gs = gs' := by
  induction h generalizing gs' us' with
  | nil =>
    cases h' with
    | nil => rfl
    | cons hg _ => exact absurd (List.append_eq_nil_iff.mp heq.symm).1 hg.ne_nil
  | cons hg _ ih =>
    cases h' with
    | nil => exact absurd (List.append_eq_nil_iff.mp heq).1 hg.ne_nil
    | cons hg' htail =>
      obtain ⟨rfl, hrest⟩ := hg.append_inj hg' heq
      rw [ih htail hrest]

theorem flatMap_encodeUnit_eq_iff {us : List CodeUnit} (h : List.Forall₂ Group gs us) :
    us.flatMap encodeUnit = gs.flatten ↔ List.Forall₂ Shortest gs us := by
  induction h with
  | nil => simp
  | cons hg hgs ih =>
    rw [List.flatMap_cons, List.flatten_cons, List.forall₂_cons, hg.shortest_iff, ← ih]
    constructor
    · exact (group_encodeUnit _).append_inj hg
    · rintro ⟨rfl, htail⟩
      rw [htail]

theorem length_encode (s : String) : (encode s).length = encodedLength s := by
  have hunits (us : List CodeUnit) : (us.flatMap encodeUnit).length =
      us.foldr (fun u n => unitLength u + n) 0 := by
    induction us with
    | nil => rfl
    | cons u us ih =>
      rw [List.flatMap_cons, List.length_append, length_encodeUnit, ih, List.foldr_cons]
  exact hunits _

theorem forall_mem_encodeUnit (u : CodeUnit) : ∀ b ∈ encodeUnit u, b ≠ 0 ∧ b.toNat < 0xF0 := by
  have hu := u.isLt
  have hbyte {n : Nat} (hpos : 0 < n) (hlt : n < 0xF0) :
      UInt8.ofNat n ≠ 0 ∧ (UInt8.ofNat n).toNat < 0xF0 := by
    rw [ne_eq, ← UInt8.toNat_inj, toNat_byte (by omega)]
    exact ⟨Nat.ne_of_gt hpos, hlt⟩
  have hnil : ∀ b ∈ ([] : Bytes), b ≠ 0 ∧ b.toNat < 0xF0 := nofun
  rw [encodeUnit]
  split
  case isTrue h =>
    exact List.forall_mem_cons.mpr ⟨hbyte h.1 (by omega), hnil⟩
  case isFalse h =>
    have hlast : UInt8.ofNat (0x80 + u.toNat % 0x40) ≠ 0 ∧ _ := hbyte (by omega) (by omega)
    split
    · exact List.forall_mem_cons.mpr ⟨hbyte (by omega) (by omega),
        List.forall_mem_cons.mpr ⟨hlast, hnil⟩⟩
    · exact List.forall_mem_cons.mpr ⟨hbyte (by omega) (by omega),
        List.forall_mem_cons.mpr ⟨hbyte (by omega) (by omega),
          List.forall_mem_cons.mpr ⟨hlast, hnil⟩⟩⟩

theorem forall_mem_encode (s : String) : ∀ b ∈ encode s, b ≠ 0 ∧ b.toNat < 0xF0 := by
  intro b hb
  obtain ⟨u, -, hb⟩ := List.mem_flatMap.mp hb
  exact forall_mem_encodeUnit u b hb

theorem failsWith_continuation {b : UInt8} :
    FailsWith (fun e => e.kind = .serialization) (continuation offset b) := by
  rw [continuation]
  split
  · exact .ok _
  · exact .error rfl

theorem failsWith_decodeUnits :
    FailsWith (fun e => e.kind = .serialization) (decodeUnits offset bs) := by
  fun_induction decodeUnits offset bs with
  | case1 => exact .ok _
  | case2 =>
    rename_i ih
    exact ih.bind fun _ => .ok _
  | case4 =>
    rename_i ih
    exact failsWith_continuation.bind fun _ => ih.bind fun _ => .ok _
  | case6 _ _ _ _ _ _ _ cs =>
    rename_i ih
    refine failsWith_continuation.bind fun _ => ?_
    cases cs with
    | nil => exact .error rfl
    | cons d ds => exact failsWith_continuation.bind fun _ => ih.bind fun _ => .ok _
  | _ => exact .error rfl

theorem failsWith_decode : FailsWith (fun e => e.kind = .serialization) (decode bs) := by
  refine failsWith_decodeUnits.bind fun us => ?_
  split
  · exact .ok _
  · exact .error rfl

/-! ## The text layout -/

/-- A text is written in as many bytes as are told, none of them zero or above `0xEF`, and read
back. Bytes are read exactly if they split into groups that stand for the units of a text, which
they do in one way at most, and written again as they were exactly if each group is the shortest of
its unit. -/
theorem text_layout :
    (∀ s, (encode s).length = encodedLength s ∧ (∀ b ∈ encode s, b ≠ 0 ∧ b.toNat < 0xF0) ∧
      decode (encode s) = .ok s) ∧
    (∀ bs s, decode bs = .ok s ↔ ∃ gs, Splits bs gs s) ∧
    (∀ bs, (¬ ∃ s gs, Splits bs gs s) → ∃ e, decode bs = .error e ∧ e.kind = .serialization) ∧
    ∀ bs gs s, Splits bs gs s → (∀ gs' s', Splits bs gs' s' → gs' = gs ∧ s' = s) ∧
      (encode s = bs ↔ List.Forall₂ Shortest gs (Utf16.encode s.toList)) := by
  refine ⟨fun s => ⟨length_encode s, forall_mem_encode s, decode_encode s⟩,
    fun bs s => decode_eq_ok_iff_splits, fun bs hnone => ?_, fun bs gs s h => ⟨?_, ?_⟩⟩
  · cases hdecode : decode bs with
    | ok s => exact absurd ⟨s, decode_eq_ok_iff_splits.mp hdecode⟩ hnone
    | error e => exact ⟨e, rfl, failsWith_decode e hdecode⟩
  · intro gs' s' h'
    have hs := (decode_eq_ok_iff_splits.mpr ⟨gs', h'⟩).symm.trans
      (decode_eq_ok_iff_splits.mpr ⟨gs, h⟩)
    exact ⟨groups_unique h'.groups h.groups (h'.flatten.trans h.flatten.symm), Except.ok.inj hs⟩
  · rw [← flatMap_encodeUnit_eq_iff h.groups, h.flatten]
    rfl

/-- The letter A in a group of two bytes is read, and is not what is written of it. -/
theorem text_layout_of_long_group :
    decode [0xC1, 0x81] = .ok "A" ∧ encode "A" ≠ [0xC1, 0x81] := by
  have hsplits : Splits [0xC1, 0x81] [[0xC1, 0x81]] "A" :=
    ⟨rfl, .cons (Group.two (x := 1) (y := 1) (by decide) (by decide)) .nil⟩
  refine ⟨(text_layout.2.1 _ _).mpr ⟨_, hsplits⟩, fun hwritten => ?_⟩
  have hshortest := ((text_layout.2.2.2 _ _ _ hsplits).2.mp hwritten)
  cases hshortest with
  | cons h _ =>
    have hone : Group [0x41] 0x41 := Group.one (x := 0x41) (by decide)
    exact absurd (h.2 _ hone) (by decide)

end ModifiedUtf8

end WireCodec
