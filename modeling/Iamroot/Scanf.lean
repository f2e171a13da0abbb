import Iamroot.FdMap

/-!
# `sscanf`

A format is a list of directives. The scan stops at the first that does not
match; what was read before it counts, and so does a format whose last text does
not match. `%i` takes the base from the digits: a number with a zero in front is
octal.
-/

namespace Iamroot

/-- A directive: text that has to be there, `%i`, and `%<width>[..]`. -/
inductive Directive where
  | text (s : Str)
  | int
  | set (width : Nat) (char : Char → Bool)

inductive Scanned where
  | int (n : Int)
  | str (s : Str)
  deriving DecidableEq

def longMin : Int := -0x8000000000000000

def longMax : Int := 0x7fffffffffffffff

/-- The number is read as a `long`, which saturates, and its low 32 bits are stored. -/
def asInt (n : Int) : Int := (max longMin (min n longMax)).bmod 0x100000000

def scanfInt (s : Str) : Option (Int × Str) := (scanInt s).map fun (n, rest) => (asInt n, rest)

/-- What the directives read; the result of the call is the length of the list. -/
def sscanf : List Directive → Str → List Scanned
  | [], _ => []
  | .text t :: format, s => if t <+: s then sscanf format (s.drop t.length) else []
  | .int :: format, s =>
    match scanfInt s with
    | none => []
    | some (n, s) => .int n :: sscanf format s
  | .set width char :: format, s =>
    let r := (s.take width).takeWhile char
    if r = [] then [] else .str r :: sscanf format (s.drop r.length)

variable {t s r : Str} {n : Int} {format : List Directive} {width : Nat} {char : Char → Bool}

theorem sscanf_text (t s : Str) : sscanf (.text t :: format) (t ++ s) = sscanf format s := by
  rw [sscanf, if_pos (List.prefix_append t s), List.drop_left]

theorem sscanf_text_not (h : ¬ t <+: s) : sscanf (.text t :: format) s = [] := if_neg h

theorem sscanf_int (h : scanfInt s = some (n, r)) : sscanf (.int :: format) s = .int n :: sscanf format r := by
  rw [sscanf, h]

theorem sscanf_int_none (h : scanfInt s = none) : sscanf (.int :: format) s = [] := by
  rw [sscanf, h]

theorem sscanf_set (h : (s.take width).takeWhile char ≠ []) : sscanf (.set width char :: format) s =
    .str ((s.take width).takeWhile char) :: sscanf format (s.drop ((s.take width).takeWhile char).length) := by
  rw [sscanf]
  exact if_neg h

theorem sscanf_set_nil (h : (s.take width).takeWhile char = []) : sscanf (.set width char :: format) s = [] := by
  rw [sscanf]
  exact if_pos h

/-! ## Digits read by `%i` -/

def decimal (s : Str) : Nat := Nat.ofDigitChars 10 s 0

/-- Digits that `%i` reads as they are meant: the number is an `int`, and with a zero in front it has one digit but for zeros. -/
structure PlainNumber (s : Str) : Prop where
  ne : s ≠ []
  digits : ∀ c ∈ s, c.isDigit = true
  small : decimal s < 0x80000000
  octal : s.head? = some '0' → decimal s < 8

theorem ofDigitChars_eq (s : Str) (k : Nat) : Nat.ofDigitChars 10 s k = 10 ^ s.length * k + decimal s :=
  Nat.ofDigitChars_eq_ofDigitChars_zero

theorem le_ofDigitChars (s : Str) (k : Nat) : k ≤ Nat.ofDigitChars 10 s k := by
  rw [ofDigitChars_eq]
  exact Nat.le_trans (Nat.le_mul_of_pos_left k (Nat.pow_pos (by decide))) (Nat.le_add_right _ _)

theorem ofDigitChars_mono (s : Str) {j k : Nat} (h : j ≤ k) : Nat.ofDigitChars 10 s j ≤ Nat.ofDigitChars 10 s k := by
  rw [ofDigitChars_eq, ofDigitChars_eq]
  exact Nat.add_le_add_right (Nat.mul_le_mul_left _ h) _

theorem ofDigitChars_lt (s : Str) {j k : Nat} (h : j < k) : Nat.ofDigitChars 10 s j < Nat.ofDigitChars 10 s k := by
  rw [ofDigitChars_eq, ofDigitChars_eq]
  exact Nat.add_lt_add_right (Nat.mul_lt_mul_of_pos_left h (Nat.pow_pos (by decide))) _

theorem octal_le (s : Str) (k : Nat) : Nat.ofDigitChars 8 (s.takeWhile (digitValue · < 8)) k ≤ Nat.ofDigitChars 10 s k := by
  induction s generalizing k with
  | nil => exact Nat.le_refl k
  | cons c s ih =>
    rw [Nat.ofDigitChars_cons, List.takeWhile_cons]
    split
    · rw [Nat.ofDigitChars_cons]
      exact Nat.le_trans (ih _) (ofDigitChars_mono s (by omega))
    · exact Nat.le_trans (by rw [Nat.ofDigitChars_nil]; omega) (le_ofDigitChars s _)

theorem octal_eq_iff (hs : ∀ c ∈ s, c.isDigit = true) :
    Nat.ofDigitChars 8 (s.takeWhile (digitValue · < 8)) 0 = decimal s ↔ decimal s < 8 := by
  induction s with
  | nil => decide
  | cons c s ih =>
    obtain ⟨hc, hs⟩ := List.forall_mem_cons.mp hs
    have hval : digitValue c = c.toNat - '0'.toNat := digitValue_isDigit hc
    have hten : decimal (c :: s) = Nat.ofDigitChars 10 s (digitValue c) := by
      rw [decimal, Nat.ofDigitChars_cons, hval, Nat.mul_zero, Nat.zero_add]
    rw [List.takeWhile_cons]
    by_cases hlt : digitValue c < 8
    · rw [if_pos (decide_eq_true hlt), Nat.ofDigitChars_cons, ← hval, Nat.mul_zero, Nat.zero_add, hten]
      by_cases h0 : digitValue c = 0
      · rw [h0]
        exact ih hs
      · cases s with
        | nil => exact ⟨fun _ => hlt, fun _ => rfl⟩
        | cons d s =>
          -- a second digit: the decimal number is larger, and has two digits
          have hge := le_ofDigitChars s (10 * digitValue c + (d.toNat - '0'.toNat))
          have hlt' : Nat.ofDigitChars 8 ((d :: s).takeWhile (digitValue · < 8)) (digitValue c) <
              Nat.ofDigitChars 10 s (10 * digitValue c + (d.toNat - '0'.toNat)) := by
            rw [List.takeWhile_cons]
            split
            · rw [Nat.ofDigitChars_cons]
              exact Nat.lt_of_le_of_lt (octal_le s _) (ofDigitChars_lt s (by omega))
            · exact Nat.lt_of_lt_of_le (by omega : digitValue c < _) hge
          have htail : Nat.ofDigitChars 10 (d :: s) (digitValue c) = Nat.ofDigitChars 10 s (10 * digitValue c + (d.toNat - '0'.toNat)) :=
            Nat.ofDigitChars_cons
          rw [htail]
          exact ⟨fun h => absurd h (Nat.ne_of_lt hlt'), fun h => by omega⟩
    · rw [if_neg (by simpa using hlt), hten]
      have hge := le_ofDigitChars s (digitValue c)
      show 0 = _ ↔ _
      omega

theorem asInt_nat {v : Nat} (h : v < 0x80000000) : asInt v = v := by
  unfold asInt longMin longMax
  rw [Int.bmod_def]
  omega

theorem asInt_lt (n : Int) : asInt n < 0x80000000 := by
  unfold asInt
  have := Int.bmod_lt (x := max longMin (min n longMax)) (m := 0x100000000) (by decide)
  omega

theorem numeral_eight (hs : ∀ c ∈ s, c.isDigit = true) : numeral ('0' :: s) = (8, '0' :: s) := by
  unfold numeral
  split
  · rename_i x d t he
    obtain rfl : s = x :: d :: t := (List.cons.inj he).2
    have hx : x.isDigit = true := hs x List.mem_cons_self
    rw [if_neg]
    rintro ⟨rfl | rfl, -⟩
    · exact absurd hx (by decide)
    · exact absurd hx (by decide)
  · rename_i he
    rw [(List.cons.inj he).2]
  · rename_i he
    exact absurd rfl (he s)

theorem scanfInt_digits (hne : s ≠ []) (hs : ∀ c ∈ s, c.isDigit = true) : ∃ v r, scanfInt s = some (asInt (v : Nat), r) ∧
    v = if s.head? = some '0' then Nat.ofDigitChars 8 (s.takeWhile (digitValue · < 8)) 0 else decimal s := by
  obtain ⟨c, u, rfl⟩ := List.exists_cons_of_ne_nil hne
  obtain ⟨hc, hu⟩ := List.forall_mem_cons.mp hs
  have hspace : (c :: u).dropWhile isSpace = c :: u := List.dropWhile_cons_of_neg (by simp [isSpace_isDigit hc])
  unfold scanfInt scanInt
  rw [hspace, sign_isDigit hc]
  by_cases h0 : c = '0'
  · subst h0
    refine ⟨magnitude ('0' :: u), ('0' :: u).dropWhile (digitValue · < 8), ?_, ?_⟩
    · simp only [numeral_eight hu]
      rfl
    · unfold magnitude
      rw [if_pos (show ('0' :: u).head? = some '0' from rfl), numeral_eight hu]
      exact foldl_digits 0 fun d hd => hs d ((List.takeWhile_prefix _).subset hd)
  · have hhead : (c :: u).head? ≠ some '0' := fun h => h0 (Option.some.inj h)
    have hlt : ∀ d ∈ c :: u, decide (digitValue d < 10) = true := fun d hd => decide_eq_true (digitValue_lt_ten (hs d hd))
    refine ⟨magnitude (c :: u), [], ?_, ?_⟩
    · simp only [numeral_ten hhead]
      rw [List.takeWhile_eq_self_iff.mpr hlt, if_neg (List.cons_ne_nil c u), List.dropWhile_eq_nil_iff.mpr hlt]
      rfl
    · unfold magnitude
      rw [if_neg hhead, numeral_ten hhead]
      show ((c :: u).takeWhile (digitValue · < 10)).foldl _ 0 = _
      rw [List.takeWhile_eq_self_iff.mpr hlt]
      exact foldl_digits 0 hs

/-- Digits are read as the number that they show exactly when they are plain. -/
theorem plainNumber_iff (hne : s ≠ []) (hs : ∀ c ∈ s, c.isDigit = true) :
    (∃ r, scanfInt s = some ((decimal s : Int), r)) ↔ PlainNumber s := by
  obtain ⟨v, rest, hscan, hv⟩ := scanfInt_digits hne hs
  constructor
  · rintro ⟨r, hr⟩
    rw [hscan] at hr
    have hval : asInt (v : Int) = decimal s := (Prod.mk.inj (Option.some.inj hr)).1
    have hsmall : decimal s < 0x80000000 := by
      have := asInt_lt v
      omega
    refine ⟨hne, hs, hsmall, fun h0 => ?_⟩
    rw [if_pos h0] at hv
    have hle : v ≤ decimal s := hv ▸ octal_le s 0
    rw [asInt_nat (Nat.lt_of_le_of_lt hle hsmall)] at hval
    rw [← octal_eq_iff hs, ← hv]
    exact Int.ofNat_inj.mp hval
  · intro h
    have hdec : v = decimal s := by
      rw [hv]
      split
      · exact (octal_eq_iff hs).mpr (h.octal ‹_›)
      · rfl
    exact ⟨rest, by rw [hscan, hdec, asInt_nat h.small]⟩

end Iamroot
