import Iamroot.Lib.ByteOrder

/-!
# Bytes of a word all at once

Whether a word has a byte that is zero can be told without looking at its bytes
one after the other: subtract one from every byte, and look at the high bits
that were clear. A borrow changes the bytes above one that is zero only.
-/

namespace ByteOrder

def ones (w : Nat) : BitVec w := BitVec.ofNat w ((2 ^ w - 1) / 255)

def highs (w : Nat) : BitVec w := ones w * 128#w

def hasZero {w : Nat} (x : BitVec w) : BitVec w := x - ones w &&& ~~~x &&& highs w

/-! ## In numbers -/

def onesNat (n : Nat) : Nat := (256 ^ n - 1) / 255

def hasZeroNat (n x : Nat) : Nat := (256 ^ n - onesNat n + x) % 256 ^ n &&& 256 ^ n - 1 - x &&& onesNat n * 128

theorem onesNat_eq (n : Nat) : 255 * onesNat n + 1 = 256 ^ n := by
  unfold onesNat
  induction n with
  | zero => rfl
  | succ n ih =>
    rw [pow_succ]
    omega

theorem onesNat_succ (n : Nat) : onesNat (n + 1) = 1 + 256 * onesNat n := by
  have h := onesNat_eq n
  have h' := onesNat_eq (n + 1)
  rw [pow_succ] at h'
  omega

theorem ne_zero_iff_byte (z : Nat) : z ≠ 0 ↔ z % 2 ^ 8 ≠ 0 ∨ z / 2 ^ 8 ≠ 0 := by
  omega

theorem byte_hasZero : ∀ b < 256, ((255 + b) % 256 &&& 255 - b &&& 128) ≠ 0 ↔ b = 0 := by
  decide +kernel

theorem hasZeroNat_cons {n b y : Nat} (hb : b < 256) (hy : y < 256 ^ n) :
    hasZeroNat (n + 1) (b + 256 * y) ≠ 0 ↔ b = 0 ∨ hasZeroNat n y ≠ 0 := by
  have hones := onesNat_eq n
  have hsum := Nat.mod_mul (x := 256 * 256 ^ n - (1 + 256 * onesNat n) + (b + 256 * y)) (a := 256) (b := 256 ^ n)
  unfold hasZeroNat
  rw [onesNat_succ, pow_succ, mul_comm (256 ^ n) 256, hsum]
  generalize 256 ^ n = P at hones hy
  generalize onesNat n = o at hones
  generalize hT : 256 * P - (1 + 256 * o) + (b + 256 * y) = T
  have hlow : T % 256 = (255 + b) % 256 := by omega
  have hhigh : b ≠ 0 → T / 256 = P - o + y := by omega
  have hsum0 : ∀ q, (T % 256 + 256 * q) % 2 ^ 8 = T % 256 := by omega
  have hsum1 : ∀ q, (T % 256 + 256 * q) / 2 ^ 8 = q := by omega
  have hnot0 : (256 * P - 1 - (b + 256 * y)) % 2 ^ 8 = 255 - b := by omega
  have hnot1 : (256 * P - 1 - (b + 256 * y)) / 2 ^ 8 = P - 1 - y := by omega
  have hhigh0 : (1 + 256 * o) * 128 % 2 ^ 8 = 128 := by omega
  have hhigh1 : (1 + 256 * o) * 128 / 2 ^ 8 = o * 128 := by omega
  rw [ne_zero_iff_byte, Nat.and_mod_two_pow, Nat.and_mod_two_pow, Nat.and_div_two_pow, Nat.and_div_two_pow, hsum0, hsum1, hnot0,
    hnot1, hhigh0, hhigh1, hlow, byte_hasZero b hb]
  by_cases h0 : b = 0
  · simp only [h0, true_or]
  · rw [hhigh h0]

theorem leNat_cons (b : Byte) (bs : List Byte) : leNat (b :: bs) = b.toNat + 256 * leNat bs := by
  rw [leNat, List.map_cons, Nat.ofDigits_cons]
  rfl

theorem leNat_lt_pow (b : List Byte) : leNat b < 256 ^ b.length := by
  have h := leNat_lt b
  rw [pow_mul] at h
  exact h

theorem hasZeroNat_iff (b : List Byte) : hasZeroNat b.length (leNat b) ≠ 0 ↔ (0 : Byte) ∈ b := by
  induction b with
  | nil => decide
  | cons c b ih =>
    have hc : c.toNat = 0 ↔ (0 : Byte) = c := by
      rw [eq_comm, ← BitVec.toNat_inj]
      rfl
    rw [List.length_cons, leNat_cons, hasZeroNat_cons c.isLt (leNat_lt_pow b), ih, List.mem_cons, hc]

/-! ## In words -/

theorem toNat_load {w : Nat} (e : Endian) {b : List Byte} (hw : w = 8 * b.length) : (load w e b).toNat = e.nat b := by
  have hlt : e.nat b < 2 ^ w := by
    rw [hw]
    cases e with
    | little => exact leNat_lt b
    | big =>
      have h := leNat_lt b.reverse
      rwa [List.length_reverse] at h
  rw [load, BitVec.toNat_ofNat, Nat.mod_eq_of_lt hlt]

theorem toNat_ones (n : Nat) : (ones (8 * n)).toNat = onesNat n := by
  have h := onesNat_eq n
  have hpow : 2 ^ (8 * n) = 256 ^ n := pow_mul 2 8 n
  rw [ones, BitVec.toNat_ofNat, hpow, ← onesNat]
  exact Nat.mod_eq_of_lt (by omega)

theorem toNat_hasZero {n : Nat} (x : BitVec (8 * n)) : (hasZero x).toNat = hasZeroNat n x.toNat := by
  have h := onesNat_eq n
  have hpow : 2 ^ (8 * n) = 256 ^ n := pow_mul 2 8 n
  have hhighs : (highs (8 * n)).toNat = onesNat n * 128 := by
    rw [highs, BitVec.toNat_mul, toNat_ones, BitVec.toNat_ofNat, hpow, Nat.mul_mod_mod]
    exact Nat.mod_eq_of_lt (by omega)
  rw [hasZero, BitVec.toNat_and, BitVec.toNat_and, BitVec.toNat_sub, BitVec.toNat_not, hhighs, toNat_ones, hpow]
  rfl

theorem hasZero_toNat {n : Nat} (x : BitVec (8 * n)) : hasZero x ≠ 0 ↔ hasZeroNat n x.toNat ≠ 0 := by
  rw [← toNat_hasZero, ne_eq, ne_eq, ← BitVec.toNat_inj]
  rfl

theorem hasZero_load {n : Nat} (e : Endian) {b : List Byte} (hb : b.length = n) :
    hasZero (load (8 * n) e b) ≠ 0 ↔ (0 : Byte) ∈ b := by
  subst hb
  rw [hasZero_toNat, toNat_load e rfl]
  cases e with
  | little => exact hasZeroNat_iff b
  | big =>
    have h := hasZeroNat_iff b.reverse
    rw [List.length_reverse, List.mem_reverse] at h
    exact h

theorem xor_cons {b c y k : Nat} (hb : b < 256) (hc : c < 256) : (b + 256 * y) ^^^ (c + 256 * k) = (b ^^^ c) + 256 * (y ^^^ k) := by
  have hlow : ((b + 256 * y) ^^^ (c + 256 * k)) % 2 ^ 8 = b ^^^ c := by
    have h1 : (b + 256 * y) % 2 ^ 8 = b := by omega
    have h2 : (c + 256 * k) % 2 ^ 8 = c := by omega
    rw [Nat.xor_mod_two_pow, h1, h2]
  have hrest : ((b + 256 * y) ^^^ (c + 256 * k)) / 2 ^ 8 = y ^^^ k := by
    have h1 : (b + 256 * y) / 2 ^ 8 = y := by omega
    have h2 : (c + 256 * k) / 2 ^ 8 = k := by omega
    rw [Nat.xor_div_two_pow, h1, h2]
  have hsplit := Nat.mod_add_div ((b + 256 * y) ^^^ (c + 256 * k)) (2 ^ 8)
  rw [hlow, hrest] at hsplit
  exact hsplit.symm

theorem leNat_xor (c : Byte) (b : List Byte) : leNat b ^^^ (onesNat b.length * c.toNat) = leNat (b.map (· ^^^ c)) := by
  induction b with
  | nil =>
    have hzero : onesNat ([] : List Byte).length = 0 := rfl
    rw [hzero, Nat.zero_mul]
    rfl
  | cons d b ih =>
    have hones : onesNat (d :: b).length * c.toNat = c.toNat + 256 * (onesNat b.length * c.toNat) := by
      rw [List.length_cons, onesNat_succ, Nat.add_mul, Nat.one_mul, Nat.mul_assoc]
    rw [List.map_cons, leNat_cons, leNat_cons, hones, xor_cons d.isLt c.isLt, ih, BitVec.toNat_xor]

theorem hasZeroNat_xor (c : Byte) (b : List Byte) :
    hasZeroNat b.length (leNat b ^^^ (onesNat b.length * c.toNat)) ≠ 0 ↔ c ∈ b := by
  have h := hasZeroNat_iff (b.map (· ^^^ c))
  rw [List.length_map] at h
  rw [leNat_xor, h, List.mem_map]
  constructor
  · rintro ⟨d, hd, h0⟩
    rw [← BitVec.xor_eq_zero_iff.mp h0]
    exact hd
  · exact fun hc => ⟨c, hc, BitVec.xor_self⟩

theorem hasZero_xor {n : Nat} (e : Endian) (c : Byte) {b : List Byte} (hb : b.length = n) :
    hasZero (load (8 * n) e b ^^^ ones (8 * n) * c.setWidth (8 * n)) ≠ 0 ↔ c ∈ b := by
  subst hb
  have hpow : 2 ^ (8 * b.length) = 256 ^ b.length := pow_mul 2 8 b.length
  have hk : (ones (8 * b.length) * c.setWidth (8 * b.length)).toNat = onesNat b.length * c.toNat := by
    have hones := onesNat_eq b.length
    have hle : onesNat b.length * c.toNat ≤ onesNat b.length * 255 := Nat.mul_le_mul_left _ (Nat.le_of_lt_succ c.isLt)
    rw [BitVec.toNat_mul, toNat_ones, BitVec.toNat_setWidth, hpow, Nat.mul_mod_mod]
    exact Nat.mod_eq_of_lt (by omega)
  rw [hasZero_toNat, BitVec.toNat_xor, toNat_load e rfl, hk]
  cases e with
  | little => exact hasZeroNat_xor c b
  | big =>
    have h := hasZeroNat_xor c b.reverse
    rw [List.length_reverse, List.mem_reverse] at h
    exact h

end ByteOrder
