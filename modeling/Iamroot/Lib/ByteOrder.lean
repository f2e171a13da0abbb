import Mathlib.Data.Nat.Digits.Lemmas

/-!
# Byte orders

Words read from bytes in either order. A word and its image with the bytes
reversed are read alike under opposite orders; read under one order they agree
only when the bytes are a palindrome.
-/

namespace ByteOrder

abbrev Byte := BitVec 8

inductive Endian where
  | little | big
  deriving DecidableEq

def Endian.flip : Endian → Endian
  | little => big
  | big => little

/-- The number whose base-256 digits are the bytes, the least significant first. -/
def leNat (b : List Byte) : Nat := Nat.ofDigits 256 (b.map BitVec.toNat)

def Endian.nat (e : Endian) (b : List Byte) : Nat :=
  match e with
  | little => leNat b
  | big => leNat b.reverse

def load (w : Nat) (e : Endian) (b : List Byte) : BitVec w := BitVec.ofNat w (e.nat b)

theorem Endian.flip_flip (e : Endian) : e.flip.flip = e := by cases e <;> rfl

theorem Endian.eq_or_flip (e e' : Endian) : e' = e ∨ e' = e.flip := by cases e <;> cases e' <;> decide

theorem leNat_inj {b b' : List Byte} (hl : b.length = b'.length) (h : leNat b = leNat b') : b = b' := by
  have hlt : ∀ c : List Byte, ∀ x ∈ c.map BitVec.toNat, x < 256 := by
    intro c x hx
    obtain ⟨y, -, rfl⟩ := List.mem_map.mp hx
    exact y.isLt
  have hm := Nat.ofDigits_inj_of_len_eq (by decide) (by simpa using hl) (hlt b) (hlt b') h
  exact List.map_injective_iff.mpr (fun _ _ => BitVec.eq_of_toNat_eq) hm

theorem leNat_lt (b : List Byte) : leNat b < 2 ^ (8 * b.length) := by
  have h := Nat.ofDigits_lt_base_pow_length (b := 256) (l := b.map BitVec.toNat) (by decide) (fun x hx => by
    obtain ⟨y, -, rfl⟩ := List.mem_map.mp hx
    exact y.isLt)
  rw [List.length_map] at h
  rw [pow_mul]
  exact h

theorem Endian.nat_inj (e : Endian) {b b' : List Byte} (hl : b.length = b'.length) (h : e.nat b = e.nat b') :
    b = b' := by
  cases e with
  | little => exact leNat_inj hl h
  | big =>
    have h' := leNat_inj (by simpa using hl) h
    exact List.reverse_injective h'

theorem Endian.nat_lt (e : Endian) (b : List Byte) : e.nat b < 2 ^ (8 * b.length) := by
  cases e with
  | little => exact leNat_lt b
  | big =>
    have h := leNat_lt b.reverse
    rwa [List.length_reverse] at h

theorem load_inj {w : Nat} (e : Endian) {b b' : List Byte} (hw : 8 * b.length = w) (hl : b.length = b'.length)
    (h : load w e b = load w e b') : b = b' := by
  apply e.nat_inj hl
  have h' := congrArg BitVec.toNat h
  have hb := e.nat_lt b
  have hb' := e.nat_lt b'
  rw [hw] at hb
  rw [← hl, hw] at hb'
  unfold load at h'
  rwa [BitVec.toNat_ofNat, BitVec.toNat_ofNat, Nat.mod_eq_of_lt hb, Nat.mod_eq_of_lt hb'] at h'

theorem load_reverse (w : Nat) (e : Endian) (b : List Byte) : load w e b.reverse = load w e.flip b := by
  cases e with
  | little => rfl
  | big => unfold load Endian.nat; rw [List.reverse_reverse]; rfl

theorem load_flip_reverse (w : Nat) (e : Endian) (b : List Byte) : load w e.flip b.reverse = load w e b := by
  rw [load_reverse, e.flip_flip]

theorem load_reverse_eq_iff {w : Nat} (e : Endian) {b : List Byte} (hw : 8 * b.length = w) :
    load w e b = load w e b.reverse ↔ b = b.reverse := by
  constructor
  · exact load_inj e hw b.length_reverse.symm
  · intro h; rw [← h]

theorem leNat_append (l l' : List Byte) : leNat (l ++ l') = leNat l + 2 ^ (8 * l.length) * leNat l' := by
  unfold leNat
  rw [List.map_append, Nat.ofDigits_append, List.length_map, pow_mul]
  rfl

theorem toNat_append_eq {n m : Nat} (x : BitVec n) (y : BitVec m) : (x ++ y).toNat = y.toNat + 2 ^ m * x.toNat := by
  rw [BitVec.toNat_append, ← Nat.shiftLeft_add_eq_or_of_lt y.isLt, Nat.shiftLeft_eq, Nat.mul_comm, Nat.add_comm]

theorem load_cat {w : Nat} {l l' : List Byte} (h : 8 * l.length = w) (h' : 8 * l'.length = w) :
    load (w + w) .little (l ++ l') = load w .little l' ++ load w .little l := by
  apply BitVec.eq_of_toNat_eq
  have hl := leNat_lt l
  have hl' := leNat_lt l'
  have hll := leNat_lt (l ++ l')
  rw [h] at hl
  rw [h'] at hl'
  rw [List.length_append, Nat.mul_add, h, h'] at hll
  rw [toNat_append_eq]
  unfold load Endian.nat
  rw [BitVec.toNat_ofNat, BitVec.toNat_ofNat, BitVec.toNat_ofNat, Nat.mod_eq_of_lt hll, Nat.mod_eq_of_lt hl,
    Nat.mod_eq_of_lt hl', leNat_append, h]

end ByteOrder
