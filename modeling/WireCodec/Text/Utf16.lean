import WireCodec.Bytes.LittleEndian

/-!
UTF-16. A character is one unit, or a high and a low surrogate; `Utf16.decode_encode` says that
the units of a text stand for that text alone.
-/

namespace WireCodec.Utf16

/-- A UTF-16 code unit. -/
abbrev CodeUnit : Type := BitVec 16

/-- Whether a unit is the first half of a pair. -/
def isHigh (u : CodeUnit) : Bool := 0xD800 ≤ u.toNat && u.toNat < 0xDC00

/-- Whether a unit is the second half of a pair. -/
def isLow (u : CodeUnit) : Bool := 0xDC00 ≤ u.toNat && u.toNat < 0xE000

/-- Whether a unit is half of a pair and so no character on its own. -/
def isSurrogate (u : CodeUnit) : Bool := 0xD800 ≤ u.toNat && u.toNat < 0xE000

/-- The units of a character. -/
def encodeChar (c : Char) : List CodeUnit :=
  if c.toNat < 0x10000 then [BitVec.ofNat 16 c.toNat]
  else
    let n := c.toNat - 0x10000
    [BitVec.ofNat 16 (0xD800 + n / 0x400), BitVec.ofNat 16 (0xDC00 + n % 0x400)]

/-- The units of a list of characters. -/
def encode (cs : List Char) : List CodeUnit := cs.flatMap encodeChar

/-- The character that a unit outside the surrogates stands for. -/
def charOfUnit (u : CodeUnit) : Char := Char.ofNat u.toNat

/-- The character that a surrogate pair stands for. -/
def charOfPair (high low : CodeUnit) : Char :=
  Char.ofNat (0x10000 + (high.toNat - 0xD800) * 0x400 + (low.toNat - 0xDC00))

/-- The characters that units stand for, unless a surrogate is unpaired. -/
def decode : List CodeUnit → Option (List Char)
  | [] => some []
  | [u] => if isSurrogate u then none else some [charOfUnit u]
  | u :: v :: rest =>
    if isHigh u then
      if isLow v then (decode rest).map (charOfPair u v :: ·) else none
    else if isLow u then none
    else (decode (v :: rest)).map (charOfUnit u :: ·)

private theorem toNat_valid (c : Char) :
    c.toNat < 0xD800 ∨ (0xDFFF < c.toNat ∧ c.toNat < 0x110000) := c.valid

theorem decode_unit {u : CodeUnit} (h : isSurrogate u = false) (rest : List CodeUnit) :
    decode (u :: rest) = (decode rest).map (charOfUnit u :: ·) := by
  cases rest with
  | nil => simp [decode, h]
  | cons v rest =>
    have hu : isHigh u = false ∧ isLow u = false := by
      simp only [isSurrogate, isHigh, isLow, Bool.and_eq_false_iff, decide_eq_false_iff_not] at h ⊢
      omega
    simp [decode, hu]

private theorem toNat_unit {n : Nat} (h : n < 0x10000) : (BitVec.ofNat 16 n).toNat = n := by
  rw [BitVec.toNat_ofNat]
  exact Nat.mod_eq_of_lt (by omega)

theorem decode_encodeChar (c : Char) (rest : List CodeUnit) :
    decode (encodeChar c ++ rest) = (decode rest).map (c :: ·) := by
  have hc := toNat_valid c
  by_cases h : c.toNat < 0x10000
  · have hn : (BitVec.ofNat 16 c.toNat).toNat = c.toNat := toNat_unit h
    have hs : isSurrogate (BitVec.ofNat 16 c.toNat) = false := by
      simp only [isSurrogate, hn, Bool.and_eq_false_iff, decide_eq_false_iff_not]
      omega
    simp only [encodeChar, h, if_true, List.cons_append, List.nil_append, decode_unit hs, charOfUnit,
      hn, Char.ofNat_toNat]
  · have hh : (BitVec.ofNat 16 (0xD800 + (c.toNat - 0x10000) / 0x400)).toNat =
        0xD800 + (c.toNat - 0x10000) / 0x400 := toNat_unit (by omega)
    have hl : (BitVec.ofNat 16 (0xDC00 + (c.toNat - 0x10000) % 0x400)).toNat =
        0xDC00 + (c.toNat - 0x10000) % 0x400 := toNat_unit (by omega)
    have high : isHigh (BitVec.ofNat 16 (0xD800 + (c.toNat - 0x10000) / 0x400)) = true := by
      simp only [isHigh, hh, Bool.and_eq_true, decide_eq_true_eq]
      omega
    have low : isLow (BitVec.ofNat 16 (0xDC00 + (c.toNat - 0x10000) % 0x400)) = true := by
      simp only [isLow, hl, Bool.and_eq_true, decide_eq_true_eq]
      omega
    have pair : 0x10000 + (0xD800 + (c.toNat - 0x10000) / 0x400 - 0xD800) * 0x400 +
        (0xDC00 + (c.toNat - 0x10000) % 0x400 - 0xDC00) = c.toNat := by omega
    simp only [encodeChar, h, if_false, List.cons_append, List.nil_append, decode, high, low, if_true,
      charOfPair, hh, hl, pair, Char.ofNat_toNat]

theorem decode_encode (cs : List Char) : decode (encode cs) = some cs := by
  induction cs with
  | nil => rfl
  | cons c cs ih =>
    have h := decode_encodeChar c (encode cs)
    rwa [ih] at h

/-- The unit that a character is, when one unit holds it. -/
def unitOfChar? (c : Char) : Option CodeUnit :=
  if c.toNat < 0x10000 then some (BitVec.ofNat 16 c.toNat) else none

/-- The character that a unit is on its own. -/
def charOfUnit? (u : CodeUnit) : Option Char :=
  if isSurrogate u then none else some (charOfUnit u)

end WireCodec.Utf16
