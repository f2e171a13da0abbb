import Iamroot.Basic
import Iamroot.Lib.ZeroByte

/-!
# `__strchrnul`

The search for a character reads a whole word at a time, once the pointer is
aligned. It reads behind the end of the string, but not behind the end of the
word that holds it, and it stops where a search byte by byte does.
-/

namespace Iamroot

open ByteOrder

/-- `for (; *s && *(unsigned char *)s != c; s++);` `none` is the end of the memory. -/
def seek (c : Byte) : List Byte → Option Nat
  | [] => none
  | b :: s => if b = 0 ∨ b = c then some 0 else (seek c s).map (· + 1)

section
variable (align : Nat) (e : Endian) (c : Byte)

/-- `for (w = (void *)s; !HASZERO(*w) && !HASZERO(*w^k); w++);`, and the search in the word where it stops. -/
def seekWords (s : List Byte) : Option Nat :=
  if _h : 0 < align ∧ align ≤ s.length then
    let k := ones (8 * align) * c.setWidth (8 * align)
    let w := load (8 * align) e (s.take align)
    if hasZero w = 0 ∧ hasZero (w ^^^ k) = 0 then (seekWords (s.drop align)).map (· + align) else seek c s
  else none
termination_by s.length
decreasing_by
  rw [List.length_drop]
  omega

def seekAligned (a : Nat) (s : List Byte) : Option Nat :=
  if a % align = 0 then seekWords align e c s
  else
    match s with
    | [] => none
    | b :: s => if b = 0 ∨ b = c then some 0 else (seekAligned (a + 1) s).map (· + 1)

/-- `__strchrnul(s, c) - s`, with the bytes from the address `a` on. -/
def strchrnul (a : Nat) (s : List Byte) : Option Nat := if c = 0 then seek 0 s else seekAligned align e c a s

end

section
variable {align : Nat} {e : Endian} {c : Byte} {s t : List Byte}

theorem seek_append (h : ∀ b ∈ s, b ≠ 0 ∧ b ≠ c) (t : List Byte) : seek c (s ++ t) = (seek c t).map (· + s.length) := by
  induction s with
  | nil => simp
  | cons b s ih =>
    have hb := h b List.mem_cons_self
    rw [List.cons_append, seek, if_neg (not_or.mpr hb), ih fun b hb => h b (List.mem_cons_of_mem _ hb), Option.map_map]
    congr 1

/-- Words without a zero and without the character are passed over. -/
theorem seekWords_eq (halign : 0 < align) (hend : s.length % align = 0) : seekWords align e c s = seek c s := by
  induction hlen : s.length using Nat.strong_induction_on generalizing s with
  | _ n ih =>
    rw [seekWords]
    by_cases hs : align ≤ s.length
    · have htake : (s.take align).length = align := List.length_take_of_le hs
      rw [dif_pos ⟨halign, hs⟩]
      dsimp only
      by_cases hword : hasZero (load (8 * align) e (s.take align)) = 0 ∧
          hasZero (load (8 * align) e (s.take align) ^^^ ones (8 * align) * c.setWidth (8 * align)) = 0
      · have hall : ∀ b ∈ s.take align, b ≠ 0 ∧ b ≠ c := by
          have hzero := mt (hasZero_load e htake).mpr (not_not.mpr hword.1)
          have hchar := mt (hasZero_xor e c htake).mpr (not_not.mpr hword.2)
          exact fun b hb => ⟨fun h => hzero (h ▸ hb), fun h => hchar (h ▸ hb)⟩
        have hlt : (s.drop align).length < n := by
          rw [List.length_drop]
          omega
        have hend' : (s.drop align).length % align = 0 := by
          rw [List.length_drop, ← Nat.mod_eq_sub_mod hs, hend]
        have hsplit := seek_append hall (s.drop align)
        rw [List.take_append_drop, htake] at hsplit
        rw [if_pos hword, ih _ hlt hend' rfl, hsplit]
      · rw [if_neg hword]
    · have hnil : s = [] := by
        rw [Nat.mod_eq_of_lt (Nat.lt_of_not_le hs)] at hend
        exact List.length_eq_zero_iff.mp hend
      rw [dif_neg fun h => hs h.2, hnil]
      rfl

theorem seekAligned_eq (halign : 0 < align) {a : Nat} (hend : (a + s.length) % align = 0) : seekAligned align e c a s = seek c s := by
  induction s generalizing a with
  | nil =>
    have ha : a % align = 0 := hend
    rw [seekAligned, if_pos ha]
    exact seekWords_eq halign (Nat.zero_mod align)
  | cons b s ih =>
    have ih := @ih (a + 1) (by rw [List.length_cons] at hend; rw [← hend]; congr 1; omega)
    rw [seekAligned]
    by_cases ha : a % align = 0
    · rw [if_pos ha]
      refine seekWords_eq halign ?_
      rw [Nat.add_mod, ha, Nat.zero_add, Nat.mod_mod] at hend
      exact hend
    · rw [if_neg ha, ih]
      rfl

def byteOf (c : Char) : Byte := BitVec.ofNat 8 c.toNat

theorem byteOf_inj {c d : Char} (hc : c.toNat < 256) (hd : d.toNat < 256) (h : byteOf c = byteOf d) : c = d := by
  have hnat := congrArg BitVec.toNat h
  rw [byteOf, byteOf, BitVec.toNat_ofNat, BitVec.toNat_ofNat, Nat.mod_eq_of_lt hc, Nat.mod_eq_of_lt hd] at hnat
  exact Char.toNat_inj.mp hnat

theorem seek_string {c : Char} (hc : c.toNat < 256) {s : Str} (hs : ∀ d ∈ s, d.toNat < 256) (hnul : nul ∉ s) (rest : List Byte) :
    seek (byteOf c) (s.map byteOf ++ 0 :: rest) = some (s.takeWhile (· ≠ c)).length := by
  induction s with
  | nil => rfl
  | cons d s ih =>
    have hd := hs d List.mem_cons_self
    have ih := ih (fun d hd => hs d (List.mem_cons_of_mem _ hd)) fun h => hnul (List.mem_cons_of_mem d h)
    have hzero : byteOf d ≠ 0 := by
      intro h
      have hnul' : d = nul := byteOf_inj hd (by decide) h
      exact hnul (hnul' ▸ List.mem_cons_self)
    rw [List.map_cons, List.cons_append, seek, ih]
    by_cases he : d = c
    · subst he
      rw [if_pos (.inr rfl), List.takeWhile_cons_of_neg (by simp)]
      rfl
    · have hne : ¬ (byteOf d = 0 ∨ byteOf d = byteOf c) := by
        rintro (h | h)
        · exact hzero h
        · exact he (byteOf_inj hd hc h)
      rw [if_neg hne, List.takeWhile_cons_of_pos (by simpa using he)]
      rfl

end

/-- In memory that ends with a word, at whatever address the string is, the search by words stops where the string has the
character first, or at its end. -/
theorem strchrnul_string (align : Nat) (e : Endian) (a : Nat) {c : Char} {s : Str} {rest : List Byte} (halign : 0 < align)
    (hend : (a + (s.length + (rest.length + 1))) % align = 0) (hc : c.toNat < 256) (hs : ∀ d ∈ s, d.toNat < 256) (hnul : nul ∉ s) :
    strchrnul align e (byteOf c) a (s.map byteOf ++ 0 :: rest) = some (s.takeWhile (· ≠ c)).length := by
  have hlen : (s.map byteOf ++ 0 :: rest).length = s.length + (rest.length + 1) := by
    rw [List.length_append, List.length_map, List.length_cons]
  unfold strchrnul
  by_cases h0 : byteOf c = 0
  · have hstr := seek_string hc hs hnul rest
    rw [h0] at hstr
    rw [if_pos h0]
    exact hstr
  · rw [if_neg h0, seekAligned_eq halign (hlen.symm ▸ hend)]
    exact seek_string hc hs hnul rest

theorem strchrnul_string_list : strchrnul 8 .little (byteOf ':') 3 ("/usr/bin:/bin".toList.map byteOf ++ 0 :: List.replicate 7 0xff) =
    some 8 := by
  have hall : ("/usr/bin:/bin".toList.all fun d => decide (d.toNat < 256)) = true := by decide
  have hbytes : ∀ d ∈ "/usr/bin:/bin".toList, d.toNat < 256 := fun d hd => of_decide_eq_true (List.all_eq_true.mp hall d hd)
  exact strchrnul_string 8 .little 3 (by decide) (by decide) (by decide) hbytes (by decide)

end Iamroot
