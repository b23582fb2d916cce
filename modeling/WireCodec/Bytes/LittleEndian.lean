/-!
Little-endian byte strings of naturals: the layout of every fixed-width number on the wire.
`ofBytes_toBytes` and `toBytes_ofBytes` say that the two directions invert each other on `n` bytes.
-/

namespace WireCodec

/-- A byte string. -/
abbrev Bytes := List UInt8

namespace LittleEndian

/-- The low `n` bytes of `v`, least significant first. -/
def toBytes : Nat → Nat → Bytes
  | 0, _ => []
  | n + 1, v => UInt8.ofNat (v % 256) :: toBytes n (v / 256)

/-- The natural whose bytes these are, least significant first. -/
def ofBytes : Bytes → Nat
  | [] => 0
  | b :: bs => b.toNat + 256 * ofBytes bs

@[simp] theorem length_toBytes (n v : Nat) : (toBytes n v).length = n := by
  induction n generalizing v with
  | zero => rfl
  | succ n ih => simp [toBytes, ih]

theorem ofBytes_toBytes (n v : Nat) : ofBytes (toBytes n v) = v % Nat.pow 256 n := by
  induction n generalizing v with
  | zero => simp [toBytes, ofBytes, Nat.mod_one]
  | succ n ih =>
    have h : v % 256 % 256 = v % 256 := Nat.mod_mod v 256
    simp only [toBytes, ofBytes, ih, Nat.pow_eq]
    rw [UInt8.toNat_ofNat', h, Nat.pow_succ', Nat.mod_mul]

/-- The low bytes of a natural, and then the bytes of what is above them. -/
theorem toBytes_add (m n v : Nat) :
    toBytes (m + n) v = toBytes m v ++ toBytes n (v / Nat.pow 256 m) := by
  induction m generalizing v with
  | zero => simp [toBytes]
  | succ m ih =>
    have hdiv : v / 256 / Nat.pow 256 m = v / Nat.pow 256 (m + 1) := by
      rw [Nat.div_div_eq_div_mul, Nat.pow_eq, Nat.pow_eq, Nat.pow_succ']
    rw [Nat.succ_add, toBytes, ih, toBytes, hdiv, List.cons_append]

theorem ofBytes_lt (bs : Bytes) : ofBytes bs < Nat.pow 256 bs.length := by
  induction bs with
  | nil => simp [ofBytes]
  | cons b bs ih =>
    have hb : b.toNat < 256 := b.toNat_lt
    rw [Nat.pow_eq] at ih ⊢
    rw [ofBytes, List.length_cons, Nat.pow_succ]
    omega

theorem toBytes_ofBytes (bs : Bytes) : toBytes bs.length (ofBytes bs) = bs := by
  induction bs with
  | nil => rfl
  | cons b bs ih =>
    have hb : b.toNat < 256 := b.toNat_lt
    have h₁ : (b.toNat + 256 * ofBytes bs) % 256 = b.toNat := by omega
    have h₂ : (b.toNat + 256 * ofBytes bs) / 256 = ofBytes bs := by omega
    rw [List.length_cons, toBytes, ofBytes, h₁, h₂, ih, UInt8.ofNat_toNat]

/-- The low bytes of a natural are those of its remainder. -/
theorem toBytes_mod (n v : Nat) : toBytes n (v % Nat.pow 256 n) = toBytes n v := by
  have h := toBytes_ofBytes (toBytes n v)
  rwa [length_toBytes, ofBytes_toBytes] at h

end LittleEndian

end WireCodec
