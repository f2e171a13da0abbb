import Mathlib.Computability.RegularExpressions
import Iamroot.Resolution
import Iamroot.Scanf

/-!
# The name of a loader

Two functions recognise a dynamic loader by its name. `__is_ldso` matches the
whole of it with a regular expression. `__ld_ldso_abi` tries five forms in turn,
and each scan is content with what it has converted: the text that the form has
behind the last conversion, or what the name has there, is not looked at.
-/

namespace Iamroot

open RegularExpression

/-! ## `__is_ldso` -/

def spelled : Str → RegularExpression Char
  | [] => 1
  | c :: s => .char c * spelled s

def oneOf : Str → RegularExpression Char
  | [] => 0
  | c :: s => .char c + oneOf s

def oneOrMore (cs : Str) : RegularExpression Char := oneOf cs * (oneOf cs).star

def digitChars : Str := "0123456789".toList

def wordChars : Str := "0123456789ABCDEFGHIJKLMNOPQRSTUVWXYZabcdefghijklmnopqrstuvwxyz._-".toList

/-- `^ld(64|-[[:alnum:]._-]+)?\.so(\.[[:digit:]]+)?$` -/
def reLdso : RegularExpression Char :=
  spelled "ld".toList * ((1 + (spelled "64".toList + spelled "-".toList * oneOrMore wordChars)) *
    (spelled ".so".toList * (1 + spelled ".".toList * oneOrMore digitChars)))

/-- `__is_ldso`, once `dso_init` has compiled the expression. -/
def isLdsoName (path : Str) : Bool := reLdso.rmatch path

/-! ## `__ld_ldso_abi` -/

/-- The name and the number of the loader. `none`: the name and its NUL do not fit in the `NAME_MAX` bytes of `ldso`. -/
def ldLdsoAbi (path : Str) : Option (Except Errno (Str × Int)) :=
  let name := basename path
  -- Generic dynamic loader (ld.so)
  if streq name "ld.so".toList then some (.ok ([], -1))
  else
    -- Linux dynamic loader (ld.so.<abi>)
    match sscanf [.text "ld.so.".toList, .int] name with
    | [.int abi] => some (.ok ([], abi))
    | _ =>
      -- Linux 64 dynamic loader (ld64.so.<abi>)
      match sscanf [.text "ld64.so.".toList, .int] name with
      | [.int abi] => some (.ok ([], abi))
      | _ =>
        -- NetBSD dynamic loader (ld.<object>_so)
        match sscanf [.text "ld.".toList, .set nameMax (· ≠ '_'), .text "_so".toList] name with
        | [.str ldso] => if nameMax ≤ ldso.length then none else some (.ok (ldso, -1))
        | _ =>
          -- Linux or FreeBSD dynamic loader (ld-<ldso>.so.<abi>)
          match sscanf [.text "ld-".toList, .set nameMax (· ≠ '.'), .text ".so.".toList, .int] name with
          | [.str ldso, .int abi] => if nameMax ≤ ldso.length then none else some (.ok (ldso, abi))
          | [.str ldso] => if nameMax ≤ ldso.length then none else some (.error .ENOTSUP)
          | _ => some (.error .ENOTSUP)

/-! ## What the names are -/

def Digits (s : Str) : Prop := s ≠ [] ∧ ∀ c ∈ s, c.isDigit = true

/-- The names of loaders, with the part in them and the number; -1 where there is none. -/
inductive LoaderName : Str → Str → Int → Prop
  | generic : LoaderName "ld.so".toList [] (-1)
  | linux (abi : Str) : Digits abi → LoaderName ("ld.so.".toList ++ abi) [] (decimal abi)
  | linux64 (abi : Str) : Digits abi → LoaderName ("ld64.so.".toList ++ abi) [] (decimal abi)
  | netbsd (object : Str) : object ≠ [] → '_' ∉ object → LoaderName ("ld.".toList ++ (object ++ "_so".toList)) object (-1)
  | named (ldso abi : Str) : ldso ≠ [] → '.' ∉ ldso → Digits abi →
      LoaderName ("ld-".toList ++ (ldso ++ (".so.".toList ++ abi))) ldso (decimal abi)

/-- The function reads the names of loaders and refuses all others, and what it reads without `_so` is one for `__is_ldso`. -/
structure Recognised (path : Str) : Prop where
  reads : ∀ ldso abi, ldLdsoAbi path = some (.ok (ldso, abi)) ↔ LoaderName (basename path) ldso abi
  refuses : (∀ ldso abi, ¬ LoaderName (basename path) ldso abi) → ldLdsoAbi path = some (.error .ENOTSUP)
  isLdso : ¬ "_so".toList <:+: basename path → ∀ ldso abi, ldLdsoAbi path = some (.ok (ldso, abi)) →
    isLdsoName (basename path) = true

/-- Behind `ld.so.` and `ld64.so.`, what starts with a number is one that is plainly written; `ld.` and what is no such name
ends in `_so`; and so for `ld-`, with characters of the expression. -/
structure Regular (name : Str) : Prop where
  number : ∀ z, name = "ld.so.".toList ++ z ∨ name = "ld64.so.".toList ++ z → scanfInt z ≠ none → PlainNumber z
  object : ∀ y, name = "ld.".toList ++ y → y ≠ "so".toList → (∀ z, y = "so.".toList ++ z → scanfInt z = none) →
    y.takeWhile (· ≠ '_') ≠ [] → ∃ object, y = object ++ "_so".toList ∧ '_' ∉ object ∧ object.length < nameMax
  short : ∀ y, name = "ld-".toList ++ y → (y.takeWhile (· ≠ '.')).length < nameMax
  named : ∀ ldso z, name = "ld-".toList ++ (ldso ++ (".so.".toList ++ z)) → ldso ≠ [] → '.' ∉ ldso → scanfInt z ≠ none →
    PlainNumber z ∧ ("_so".toList <:+: name ∨ ∀ c ∈ ldso, c ∈ wordChars)

/-! ## The expression -/

variable {cs s t x y z : Str} {path name ldso : Str} {abi : Int} {r : Str}

theorem rmatch_spelled (s x : Str) : (spelled s).rmatch x = true ↔ x = s := by
  induction s generalizing x with
  | nil => exact one_rmatch_iff x
  | cons c s ih =>
    rw [spelled, mul_rmatch_iff]
    constructor
    · rintro ⟨t, u, rfl, ht, hu⟩
      rw [(char_rmatch_iff c t).mp ht, (ih u).mp hu]
      rfl
    · rintro rfl
      exact ⟨[c], s, rfl, (char_rmatch_iff c [c]).mpr rfl, (ih s).mpr rfl⟩

theorem rmatch_oneOf (cs x : Str) : (oneOf cs).rmatch x = true ↔ ∃ c ∈ cs, x = [c] := by
  induction cs with
  | nil => simp [oneOf]
  | cons c cs ih =>
    rw [oneOf, add_rmatch_iff, char_rmatch_iff, ih]
    simp

theorem rmatch_oneOrMore (cs x : Str) : (oneOrMore cs).rmatch x = true ↔ x ≠ [] ∧ ∀ c ∈ x, c ∈ cs := by
  rw [oneOrMore, mul_rmatch_iff]
  constructor
  · rintro ⟨t, u, rfl, ht, hu⟩
    obtain ⟨c, hc, rfl⟩ := (rmatch_oneOf cs t).mp ht
    obtain ⟨ws, rfl, hws⟩ := (star_rmatch_iff _ u).mp hu
    refine ⟨by simp, fun d hd => ?_⟩
    rcases List.mem_append.mp hd with hd | hd
    · rwa [List.mem_singleton.mp hd]
    · obtain ⟨w, hw, hd⟩ := List.mem_flatten.mp hd
      obtain ⟨e, he, rfl⟩ := (rmatch_oneOf cs w).mp (hws w hw).2
      rwa [List.mem_singleton.mp hd]
  · rintro ⟨hne, hx⟩
    obtain ⟨c, u, rfl⟩ := List.exists_cons_of_ne_nil hne
    obtain ⟨hc, hu⟩ := List.forall_mem_cons.mp hx
    refine ⟨[c], u, rfl, (rmatch_oneOf cs [c]).mpr ⟨c, hc, rfl⟩, (star_rmatch_iff _ u).mpr ⟨u.map ([·]), ?_, fun w hw => ?_⟩⟩
    · rw [← List.flatMap_def, List.flatMap_singleton']
    · obtain ⟨d, hd, rfl⟩ := List.mem_map.mp hw
      exact ⟨by simp, (rmatch_oneOf cs [d]).mpr ⟨d, hu d hd, rfl⟩⟩

theorem mem_digitChars {c : Char} : c ∈ digitChars ↔ c.isDigit = true := by
  have hlist : digitChars = (List.range 10).map fun k => Char.ofNat (48 + k) := by decide
  rw [hlist, List.mem_map]
  constructor
  · rintro ⟨k, hk, rfl⟩
    have hall : ∀ k ∈ List.range 10, (Char.ofNat (48 + k)).isDigit = true := by decide
    exact hall k hk
  · intro h
    have hc := isDigit_iff.mp h
    refine ⟨c.toNat - 48, List.mem_range.mpr (by omega), ?_⟩
    rw [Nat.add_sub_cancel' hc.1, Char.ofNat_toNat]

theorem isLdsoName_iff (name : Str) : isLdsoName name = true ↔ ∃ m t, name = "ld".toList ++ (m ++ (".so".toList ++ t)) ∧
    (m = [] ∨ m = "64".toList ∨ ∃ w, m = '-' :: w ∧ w ≠ [] ∧ ∀ c ∈ w, c ∈ wordChars) ∧
    (t = [] ∨ ∃ ds, t = '.' :: ds ∧ Digits ds) := by
  have hm : ∀ m, (1 + (spelled "64".toList + spelled "-".toList * oneOrMore wordChars)).rmatch m = true ↔
      (m = [] ∨ m = "64".toList ∨ ∃ w, m = '-' :: w ∧ w ≠ [] ∧ ∀ c ∈ w, c ∈ wordChars) := by
    intro m
    rw [add_rmatch_iff, one_rmatch_iff, add_rmatch_iff, rmatch_spelled, mul_rmatch_iff]
    simp only [rmatch_spelled, rmatch_oneOrMore]
    refine or_congr_right (or_congr_right ⟨?_, ?_⟩)
    · rintro ⟨t, w, rfl, rfl, hw⟩
      exact ⟨w, rfl, hw⟩
    · rintro ⟨w, rfl, hw⟩
      exact ⟨['-'], w, rfl, rfl, hw⟩
  have ht : ∀ t, (1 + spelled ".".toList * oneOrMore digitChars).rmatch t = true ↔ (t = [] ∨ ∃ ds, t = '.' :: ds ∧ Digits ds) := by
    intro t
    rw [add_rmatch_iff, one_rmatch_iff, mul_rmatch_iff]
    simp only [rmatch_spelled, rmatch_oneOrMore, mem_digitChars]
    refine or_congr_right ⟨?_, ?_⟩
    · rintro ⟨d, ds, rfl, rfl, hds⟩
      exact ⟨ds, rfl, hds⟩
    · rintro ⟨ds, rfl, hds⟩
      exact ⟨['.'], ds, rfl, rfl, hds⟩
  rw [isLdsoName, reLdso, mul_rmatch_iff]
  simp only [mul_rmatch_iff, rmatch_spelled, hm, ht]
  constructor
  · rintro ⟨_, _, rfl, rfl, m, _, rfl, hm, _, t, rfl, rfl, ht⟩
    exact ⟨m, t, rfl, hm, ht⟩
  · rintro ⟨m, t, rfl, hm, ht⟩
    exact ⟨_, _, rfl, rfl, m, _, rfl, hm, _, t, rfl, rfl, ht⟩

/-! ## The five scans -/

theorem append_ne {s t : Str} (k : Nat) (h : s.take k ≠ t.take k) (hs : k ≤ s.length) (ht : k ≤ t.length) (y z : Str) :
    s ++ y ≠ t ++ z := by
  intro he
  have htake := congrArg (List.take k) he
  rw [List.take_append_of_le_length hs, List.take_append_of_le_length ht] at htake
  exact h htake

theorem not_prefix_of_take {s t : Str} (k : Nat) (h : s.take k ≠ t.take k) (hs : k ≤ s.length) (ht : k ≤ t.length) (z : Str) :
    ¬ s <+: t ++ z := by
  rintro ⟨y, hy⟩
  exact append_ne k h hs ht y z hy

theorem ldLdsoAbi_generic (h : basename path = "ld.so".toList) : ldLdsoAbi path = some (.ok ([], -1)) := by
  rw [ldLdsoAbi, h]
  rfl

theorem ldLdsoAbi_linux (h : basename path = "ld.so.".toList ++ z) (hz : scanfInt z = some (abi, r)) :
    ldLdsoAbi path = some (.ok ([], abi)) := by
  rw [ldLdsoAbi, h]
  simp only [sscanf_text, sscanf_int hz]
  rfl

theorem ldLdsoAbi_linux64 (h : basename path = "ld64.so.".toList ++ z) (hz : scanfInt z = some (abi, r)) :
    ldLdsoAbi path = some (.ok ([], abi)) := by
  have h1 : ¬ "ld.so.".toList <+: "ld64.so.".toList ++ z := not_prefix_of_take 3 (by decide) (by decide) (by decide) z
  rw [ldLdsoAbi, h]
  simp only [sscanf_text_not h1, sscanf_text, sscanf_int hz]
  rfl

theorem scanned (p : Char → Bool) (y : Str) : (y.take nameMax).takeWhile p = (y.takeWhile p).take nameMax := List.take_takeWhile.symm

theorem scanned_nil (p : Char → Bool) (y : Str) : (y.take nameMax).takeWhile p = [] ↔ y.takeWhile p = [] := by
  rw [scanned, List.take_eq_nil_iff]
  exact or_iff_right (by decide)

theorem scanned_long (p : Char → Bool) (y : Str) :
    nameMax ≤ ((y.take nameMax).takeWhile p).length ↔ nameMax ≤ (y.takeWhile p).length := by
  rw [scanned, List.length_take]
  omega

theorem scanned_short {p : Char → Bool} (h : ¬ nameMax ≤ (y.takeWhile p).length) : (y.take nameMax).takeWhile p = y.takeWhile p := by
  rw [scanned, List.take_of_length_le (by omega)]

theorem sscanf_end (t s : Str) : sscanf [.text t] s = [] := by
  rw [sscanf]
  split <;> rfl

/-- `ld.` and no number behind `ld.so.`: what is read goes up to the first `_`. -/
theorem ldLdsoAbi_netbsd (h : basename path = "ld.".toList ++ y) (hso : y ≠ "so".toList)
    (hno : ∀ z, y = "so.".toList ++ z → scanfInt z = none) : ldLdsoAbi path =
      if y.takeWhile (· ≠ '_') = [] then some (.error .ENOTSUP)
      else if nameMax ≤ (y.takeWhile (· ≠ '_')).length then none else some (.ok (y.takeWhile (· ≠ '_'), -1)) := by
  have hne : streq ("ld.".toList ++ y) "ld.so".toList = false := streq_false fun e => hso ((List.append_right_inj "ld.".toList).mp e)
  have h1 : sscanf [.text "ld.so.".toList, .int] ("ld.".toList ++ y) = [] := by
    by_cases hpre : "so.".toList <+: y
    · obtain ⟨z, rfl⟩ := hpre
      show sscanf [.text "ld.so.".toList, .int] ("ld.so.".toList ++ z) = []
      rw [sscanf_text, sscanf_int_none (hno z rfl)]
    · refine sscanf_text_not ?_
      rintro ⟨z, hz⟩
      exact hpre ⟨z, (List.append_right_inj "ld.".toList).mp hz⟩
  have h2 : sscanf [.text "ld64.so.".toList, .int] ("ld.".toList ++ y) = [] :=
    sscanf_text_not (not_prefix_of_take 3 (by decide) (by decide) (by decide) y)
  have h4 : sscanf [.text "ld-".toList, .set nameMax (· ≠ '.'), .text ".so.".toList, .int] ("ld.".toList ++ y) = [] :=
    sscanf_text_not (not_prefix_of_take 3 (by decide) (by decide) (by decide) y)
  rw [ldLdsoAbi, h]
  simp only [hne, h1, h2, h4, sscanf_text]
  by_cases hnil : y.takeWhile (· ≠ '_') = []
  · rw [if_pos hnil, sscanf_set_nil ((scanned_nil _ y).mpr hnil)]
    rfl
  · rw [if_neg hnil, sscanf_set (mt (scanned_nil _ y).mp hnil), sscanf_end]
    by_cases hlen : nameMax ≤ (y.takeWhile (· ≠ '_')).length
    · rw [if_pos hlen]
      exact if_pos ((scanned_long _ y).mpr hlen)
    · rw [if_neg hlen, scanned_short hlen]
      exact if_neg hlen

theorem dash_not_scanned (y : Str) : streq ("ld-".toList ++ y) "ld.so".toList = false ∧
    sscanf [.text "ld.so.".toList, .int] ("ld-".toList ++ y) = [] ∧ sscanf [.text "ld64.so.".toList, .int] ("ld-".toList ++ y) = [] ∧
    sscanf [.text "ld.".toList, .set nameMax (· ≠ '_'), .text "_so".toList] ("ld-".toList ++ y) = [] := by
  refine ⟨streq_false fun e => ?_, sscanf_text_not ?_, sscanf_text_not ?_, sscanf_text_not ?_⟩
  · exact append_ne (t := "ld.".toList) 3 (by decide) (by decide) (by decide) y "so".toList e
  · exact not_prefix_of_take 3 (by decide) (by decide) (by decide) y
  · exact not_prefix_of_take 3 (by decide) (by decide) (by decide) y
  · exact not_prefix_of_take 3 (by decide) (by decide) (by decide) y

/-- `ld-` and what goes up to the first dot, then `.so.` and a number. -/
theorem ldLdsoAbi_named (h : basename path = "ld-".toList ++ (ldso ++ (".so.".toList ++ z))) (hne : ldso ≠ []) (hdot : '.' ∉ ldso)
    (hlen : ldso.length < nameMax) (hz : scanfInt z = some (abi, r)) : ldLdsoAbi path = some (.ok (ldso, abi)) := by
  obtain ⟨h0, h1, h2, h3⟩ := dash_not_scanned (ldso ++ (".so.".toList ++ z))
  have hrun : (ldso ++ (".so.".toList ++ z)).takeWhile (· ≠ '.') = ldso := takeWhile_name hdot _
  have hshort : ¬ nameMax ≤ ((ldso ++ (".so.".toList ++ z)).takeWhile (· ≠ '.')).length := by
    rw [hrun]
    exact Nat.not_le_of_lt hlen
  have hscan := (scanned_short hshort).trans hrun
  rw [ldLdsoAbi, h]
  simp only [h0, h1, h2, h3, sscanf_text]
  rw [sscanf_set (by rw [hscan]; exact hne), hscan, List.drop_left, sscanf_text, sscanf_int hz]
  exact if_neg (Nat.not_le_of_lt hlen)

theorem sscanf_pair (t s : Str) : sscanf [.text t, .int] s = [] ∨ ∃ z abi r, s = t ++ z ∧ scanfInt z = some (abi, r) ∧
    sscanf [.text t, .int] s = [.int abi] := by
  by_cases hpre : t <+: s
  · obtain ⟨z, rfl⟩ := hpre
    rw [sscanf_text]
    cases hz : scanfInt z with
    | none => exact .inl (sscanf_int_none hz)
    | some v => exact .inr ⟨z, v.1, v.2, rfl, hz, sscanf_int hz⟩
  · exact .inl (sscanf_text_not hpre)

theorem ldLdsoAbi_long (h : basename path = "ld-".toList ++ y) (hlen : nameMax ≤ (y.takeWhile (· ≠ '.')).length) :
    ldLdsoAbi path = none := by
  obtain ⟨h0, h1, h2, h3⟩ := dash_not_scanned y
  have hnil : y.takeWhile (· ≠ '.') ≠ [] := by
    intro hnil
    rw [hnil] at hlen
    exact absurd hlen (by decide)
  have hscan := (scanned_long (· ≠ '.') y).mpr hlen
  rw [ldLdsoAbi, h]
  simp only [h0, h1, h2, h3, sscanf_text]
  rw [sscanf_set (mt (scanned_nil _ y).mp hnil)]
  rcases sscanf_pair ".so.".toList (y.drop ((y.take nameMax).takeWhile (· ≠ '.')).length) with h4 | ⟨z, abi, r, -, -, h4⟩
  · rw [h4]
    exact if_pos hscan
  · rw [h4]
    exact if_pos hscan

/-- No other name is read. -/
theorem ldLdsoAbi_dash (h : basename path = "ld-".toList ++ y) (hlen : (y.takeWhile (· ≠ '.')).length < nameMax)
    (hnot : ∀ ldso z, y = ldso ++ (".so.".toList ++ z) → ldso ≠ [] → '.' ∉ ldso → scanfInt z = none) :
    ldLdsoAbi path = some (.error .ENOTSUP) := by
  obtain ⟨h0, h1, h2, h3⟩ := dash_not_scanned y
  rw [ldLdsoAbi, h]
  simp only [h0, h1, h2, h3, sscanf_text]
  by_cases hnil : y.takeWhile (· ≠ '.') = []
  · rw [sscanf_set_nil ((scanned_nil _ y).mpr hnil)]
    rfl
  · have hscan := scanned_short (Nat.not_le_of_lt hlen)
    rw [sscanf_set (mt (scanned_nil _ y).mp hnil), hscan]
    rcases sscanf_pair ".so.".toList (y.drop (y.takeWhile (· ≠ '.')).length) with h4 | ⟨z, abi, r, hy, hz, -⟩
    · rw [h4]
      exact if_neg (Nat.not_le_of_lt hlen)
    · have hdot : '.' ∉ y.takeWhile (· ≠ '.') := fun hm => by simpa using List.mem_takeWhile_imp hm
      have hsplit : y = y.takeWhile (· ≠ '.') ++ (".so.".toList ++ z) := by
        rw [← hy]
        exact (List.prefix_iff_eq_append.mp (List.takeWhile_prefix _)).symm
      rw [hnot _ z hsplit hnil hdot] at hz
      cases hz

theorem ldLdsoAbi_other (h : ¬ "ld.".toList <+: basename path) (hdash : ¬ "ld-".toList <+: basename path)
    (h64 : ∀ z, basename path = "ld64.so.".toList ++ z → scanfInt z = none) : ldLdsoAbi path = some (.error .ENOTSUP) := by
  have h0 : streq (basename path) "ld.so".toList = false := streq_false fun e => h ⟨"so".toList, e.symm⟩
  have h1 : sscanf [.text "ld.so.".toList, .int] (basename path) = [] := by
    refine sscanf_text_not ?_
    rintro ⟨z, hz⟩
    exact h ⟨"so.".toList ++ z, hz⟩
  have h2 : sscanf [.text "ld64.so.".toList, .int] (basename path) = [] := by
    rcases sscanf_pair "ld64.so.".toList (basename path) with h2 | ⟨z, abi, r, hname, hz, -⟩
    · exact h2
    · rw [h64 z hname] at hz
      cases hz
  rw [ldLdsoAbi]
  simp only [h0, h1, h2, sscanf_text_not h, sscanf_text_not hdash]
  rfl

/-! ## What is read -/

inductive ReadName : Str → Str → Int → Prop
  | generic : ReadName "ld.so".toList [] (-1)
  | linux (z : Str) (abi : Int) (r : Str) : scanfInt z = some (abi, r) → ReadName ("ld.so.".toList ++ z) [] abi
  | linux64 (z : Str) (abi : Int) (r : Str) : scanfInt z = some (abi, r) → ReadName ("ld64.so.".toList ++ z) [] abi
  | netbsd (y : Str) : y ≠ "so".toList → (∀ z, y = "so.".toList ++ z → scanfInt z = none) → y.takeWhile (· ≠ '_') ≠ [] →
      (y.takeWhile (· ≠ '_')).length < nameMax → ReadName ("ld.".toList ++ y) (y.takeWhile (· ≠ '_')) (-1)
  | named (ldso z : Str) (abi : Int) (r : Str) : ldso ≠ [] → '.' ∉ ldso → ldso.length < nameMax → scanfInt z = some (abi, r) →
      ReadName ("ld-".toList ++ (ldso ++ (".so.".toList ++ z))) ldso abi

inductive LongName : Str → Prop
  | netbsd (y : Str) : y ≠ "so".toList → (∀ z, y = "so.".toList ++ z → scanfInt z = none) →
      nameMax ≤ (y.takeWhile (· ≠ '_')).length → LongName ("ld.".toList ++ y)
  | named (y : Str) : nameMax ≤ (y.takeWhile (· ≠ '.')).length → LongName ("ld-".toList ++ y)

theorem ldLdsoAbi_read (h : ReadName (basename path) ldso abi) : ldLdsoAbi path = some (.ok (ldso, abi)) := by
  generalize hname : basename path = name at h
  cases h with
  | generic => exact ldLdsoAbi_generic hname
  | linux z abi r hz => exact ldLdsoAbi_linux hname hz
  | linux64 z abi r hz => exact ldLdsoAbi_linux64 hname hz
  | netbsd y hso hno hne hlen => rw [ldLdsoAbi_netbsd hname hso hno, if_neg hne, if_neg (Nat.not_le_of_lt hlen)]
  | named ldso z abi r hne hdot hlen hz => exact ldLdsoAbi_named hname hne hdot hlen hz

/-- A name is read, refused, or too long. -/
theorem ldLdsoAbi_cases (path : Str) :
    (∃ ldso abi, ldLdsoAbi path = some (.ok (ldso, abi)) ∧ ReadName (basename path) ldso abi) ∨
    ldLdsoAbi path = some (.error .ENOTSUP) ∨ (ldLdsoAbi path = none ∧ LongName (basename path)) := by
  have hread : ∀ ldso abi, ReadName (basename path) ldso abi →
      ∃ ldso abi, ldLdsoAbi path = some (.ok (ldso, abi)) ∧ ReadName (basename path) ldso abi :=
    fun ldso abi h => ⟨ldso, abi, ldLdsoAbi_read h, h⟩
  by_cases hld : "ld.".toList <+: basename path
  · obtain ⟨y, hy⟩ := hld
    by_cases hso : y = "so".toList
    · refine .inl (hread [] (-1) ?_)
      rw [← hy, hso]
      exact .generic
    by_cases hnum : ∃ z, y = "so.".toList ++ z ∧ scanfInt z ≠ none
    · obtain ⟨z, rfl, hz⟩ := hnum
      obtain ⟨v, hv⟩ := Option.ne_none_iff_exists'.mp hz
      refine .inl (hread [] v.1 ?_)
      rw [← hy]
      exact .linux z v.1 v.2 hv
    have hno : ∀ z, y = "so.".toList ++ z → scanfInt z = none := fun z hz => by_contra fun hne => hnum ⟨z, hz, hne⟩
    have hres := ldLdsoAbi_netbsd hy.symm hso hno
    by_cases hnil : y.takeWhile (· ≠ '_') = []
    · rw [if_pos hnil] at hres
      exact .inr (.inl hres)
    rw [if_neg hnil] at hres
    by_cases hlen : nameMax ≤ (y.takeWhile (· ≠ '_')).length
    · rw [if_pos hlen] at hres
      exact .inr (.inr ⟨hres, hy ▸ .netbsd y hso hno hlen⟩)
    · rw [if_neg hlen] at hres
      exact .inl ⟨_, _, hres, hy ▸ .netbsd y hso hno hnil (Nat.lt_of_not_le hlen)⟩
  by_cases hdash : "ld-".toList <+: basename path
  · obtain ⟨y, hy⟩ := hdash
    by_cases hlen : nameMax ≤ (y.takeWhile (· ≠ '.')).length
    · exact .inr (.inr ⟨ldLdsoAbi_long hy.symm hlen, hy ▸ .named y hlen⟩)
    by_cases hnamed : ∃ ldso z, y = ldso ++ (".so.".toList ++ z) ∧ ldso ≠ [] ∧ '.' ∉ ldso ∧ scanfInt z ≠ none
    · obtain ⟨ldso, z, rfl, hne, hdot, hz⟩ := hnamed
      obtain ⟨v, hv⟩ := Option.ne_none_iff_exists'.mp hz
      have hrun : (ldso ++ (".so.".toList ++ z)).takeWhile (· ≠ '.') = ldso := takeWhile_name hdot _
      rw [hrun] at hlen
      refine .inl (hread ldso v.1 ?_)
      rw [← hy]
      exact .named ldso z v.1 v.2 hne hdot (Nat.lt_of_not_le hlen) hv
    · refine .inr (.inl (ldLdsoAbi_dash hy.symm (Nat.lt_of_not_le hlen) fun ldso z he hne hdot => ?_))
      exact by_contra fun hz => hnamed ⟨ldso, z, he, hne, hdot, hz⟩
  by_cases h64 : ∃ z, basename path = "ld64.so.".toList ++ z ∧ scanfInt z ≠ none
  · obtain ⟨z, hname, hz⟩ := h64
    obtain ⟨v, hv⟩ := Option.ne_none_iff_exists'.mp hz
    refine .inl (hread [] v.1 ?_)
    rw [hname]
    exact .linux64 z v.1 v.2 hv
  · exact .inr (.inl (ldLdsoAbi_other hld hdash fun z hz => by_contra fun hne => h64 ⟨z, hz, hne⟩))

/-! ## The names of loaders among them -/

theorem LoaderName.of_empty (h : LoaderName name [] abi) : name = "ld.so".toList ∨
    ∃ z, (name = "ld.so.".toList ++ z ∨ name = "ld64.so.".toList ++ z) ∧ Digits z ∧ abi = decimal z := by
  cases h with
  | generic => exact .inl rfl
  | linux z hz => exact .inr ⟨z, .inl rfl, hz, rfl⟩
  | linux64 z hz => exact .inr ⟨z, .inr rfl, hz, rfl⟩
  | netbsd _ hne _ => exact absurd rfl hne
  | named _ z hne _ _ => exact absurd rfl hne

theorem LoaderName.number (h : LoaderName name [] abi) (hname : name = "ld.so.".toList ++ z ∨ name = "ld64.so.".toList ++ z) :
    Digits z ∧ abi = decimal z := by
  rcases h.of_empty with he | ⟨u, hu, hdigits, habi⟩
  · rcases hname with hname | hname
    · have hlen := congrArg List.length (he.symm.trans hname)
      simp at hlen
    · exact absurd (he.symm.trans hname).symm (append_ne (t := "ld.".toList) 3 (by decide) (by decide) (by decide) z "so".toList)
  · obtain rfl : z = u := by
      rcases hname with hname | hname
      · rcases hu with hu | hu
        · exact List.append_cancel_left (hname.symm.trans hu)
        · exact absurd (hname.symm.trans hu) (append_ne 3 (by decide) (by decide) (by decide) _ _)
      · rcases hu with hu | hu
        · exact absurd (hname.symm.trans hu) (append_ne 3 (by decide) (by decide) (by decide) _ _)
        · exact List.append_cancel_left (hname.symm.trans hu)
    exact ⟨hdigits, habi⟩

theorem LoaderName.of_ne (h : LoaderName name ldso abi) (hne : ldso ≠ []) :
    ('_' ∉ ldso ∧ name = "ld.".toList ++ (ldso ++ "_so".toList)) ∨
    ∃ z, name = "ld-".toList ++ (ldso ++ (".so.".toList ++ z)) ∧ Digits z ∧ abi = decimal z := by
  cases h with
  | generic => exact absurd rfl hne
  | linux z hz => exact absurd rfl hne
  | linux64 z hz => exact absurd rfl hne
  | netbsd _ _ hscore => exact .inl ⟨hscore, rfl⟩
  | named _ z _ _ hz => exact .inr ⟨z, rfl, hz, rfl⟩

theorem Digits.plain_iff (hz : Digits z) : (∃ r, scanfInt z = some ((decimal z : Int), r)) ↔ PlainNumber z := plainNumber_iff hz.1 hz.2

theorem PlainNumber.scan (h : PlainNumber z) : ∃ r, scanfInt z = some ((decimal z : Int), r) := (plainNumber_iff h.ne h.digits).mpr h

theorem PlainNumber.eq (h : PlainNumber z) (hz : scanfInt z = some (abi, r)) : abi = decimal z := by
  obtain ⟨r', hr⟩ := h.scan
  rw [hr] at hz
  exact (Prod.mk.inj (Option.some.inj hz)).1.symm

theorem Digits.scan (hz : Digits z) : scanfInt z ≠ none := by
  obtain ⟨v, r, h, -⟩ := scanfInt_digits hz.1 hz.2
  rw [h]
  exact Option.some_ne_none _

theorem Regular.loaderName (hR : Regular name) (h : ReadName name ldso abi) : LoaderName name ldso abi := by
  cases h with
  | generic => exact .generic
  | linux z abi r hz =>
    have hp := hR.number z (.inl rfl) (by rw [hz]; exact Option.some_ne_none _)
    rw [hp.eq hz]
    exact .linux z ⟨hp.ne, hp.digits⟩
  | linux64 z abi r hz =>
    have hp := hR.number z (.inr rfl) (by rw [hz]; exact Option.some_ne_none _)
    rw [hp.eq hz]
    exact .linux64 z ⟨hp.ne, hp.digits⟩
  | netbsd y hso hno hne hlen =>
    obtain ⟨object, rfl, hscore, -⟩ := hR.object y rfl hso hno hne
    have hrun : (object ++ "_so".toList).takeWhile (· ≠ '_') = object := takeWhile_name hscore _
    rw [hrun] at hne ⊢
    exact .netbsd object hne hscore
  | named ldso z abi r hne hdot hlen hz =>
    have hp := (hR.named ldso z rfl hne hdot (by rw [hz]; exact Option.some_ne_none _)).1
    rw [hp.eq hz]
    exact .named ldso z hne hdot ⟨hp.ne, hp.digits⟩

theorem Regular.readName (hR : Regular name) (h : LoaderName name ldso abi) : ReadName name ldso abi := by
  cases h with
  | generic => exact .generic
  | linux z hz =>
    obtain ⟨r, hr⟩ := (hR.number z (.inl rfl) hz.scan).scan
    exact .linux z _ r hr
  | linux64 z hz =>
    obtain ⟨r, hr⟩ := (hR.number z (.inr rfl) hz.scan).scan
    exact .linux64 z _ r hr
  | netbsd _ hne hscore =>
    have hrun : (ldso ++ "_so".toList).takeWhile (· ≠ '_') = ldso := takeWhile_name hscore _
    have hmem : '_' ∈ ldso ++ "_so".toList := List.mem_append_right _ List.mem_cons_self
    have hso : ldso ++ "_so".toList ≠ "so".toList := fun e => absurd (e ▸ hmem) (by decide)
    have hno : ∀ z, ldso ++ "_so".toList = "so.".toList ++ z → scanfInt z = none := by
      intro z hz
      by_contra hnum
      have hp := hR.number z (.inl (congrArg ("ld.".toList ++ ·) hz)) hnum
      rw [hz] at hmem
      rcases List.mem_append.mp hmem with hm | hm
      · exact absurd hm (by decide)
      · exact absurd (hp.digits _ hm) (by decide)
    obtain ⟨object, he, -, hlen⟩ := hR.object _ rfl hso hno (by rw [hrun]; exact hne)
    obtain rfl := List.append_cancel_right he
    have hread := ReadName.netbsd _ hso hno (by rw [hrun]; exact hne) (by rw [hrun]; exact hlen)
    rwa [hrun] at hread
  | named _ z hne hdot hz =>
    obtain ⟨r, hr⟩ := (hR.named ldso z rfl hne hdot hz.scan).1.scan
    have hrun : (ldso ++ (".so.".toList ++ z)).takeWhile (· ≠ '.') = ldso := takeWhile_name hdot _
    have hshort := hR.short _ rfl
    rw [hrun] at hshort
    exact .named ldso z _ r hne hdot hshort hr

theorem Regular.not_long (hR : Regular name) : ¬ LongName name := by
  intro h
  cases h with
  | netbsd y hso hno hlen =>
    have hne : y.takeWhile (· ≠ '_') ≠ [] := by
      intro hnil
      rw [hnil] at hlen
      exact absurd hlen (by decide)
    obtain ⟨object, rfl, hscore, hshort⟩ := hR.object y rfl hso hno hne
    have hrun : (object ++ "_so".toList).takeWhile (· ≠ '_') = object := takeWhile_name hscore _
    rw [hrun] at hlen
    exact Nat.not_le_of_lt hshort hlen
  | named y hlen => exact Nat.not_le_of_lt (hR.short y rfl) hlen

/-- A name that is read, without `_so`, matches the expression. -/
theorem Regular.isLdsoName (hR : Regular name) (h : ReadName name ldso abi) (hscore : ¬ "_so".toList <:+: name) :
    isLdsoName name = true := by
  rw [isLdsoName_iff]
  cases h with
  | generic => exact ⟨[], [], rfl, .inl rfl, .inl rfl⟩
  | linux z abi r hz =>
    have hp := hR.number z (.inl rfl) (by rw [hz]; exact Option.some_ne_none _)
    exact ⟨[], '.' :: z, rfl, .inl rfl, .inr ⟨z, rfl, hp.ne, hp.digits⟩⟩
  | linux64 z abi r hz =>
    have hp := hR.number z (.inr rfl) (by rw [hz]; exact Option.some_ne_none _)
    exact ⟨"64".toList, '.' :: z, rfl, .inr (.inl rfl), .inr ⟨z, rfl, hp.ne, hp.digits⟩⟩
  | netbsd y hso hno hne hlen =>
    obtain ⟨object, rfl, -, -⟩ := hR.object y rfl hso hno hne
    exact absurd ⟨"ld.".toList ++ object, [], by simp⟩ hscore
  | named ldso z abi r hne hdot hlen hz =>
    obtain ⟨hp, hword⟩ := hR.named ldso z rfl hne hdot (by rw [hz]; exact Option.some_ne_none _)
    exact ⟨'-' :: ldso, '.' :: z, rfl, .inr (.inr ⟨ldso, rfl, hne, hword.resolve_left hscore⟩), .inr ⟨z, rfl, hp.ne, hp.digits⟩⟩

theorem word_of_isLdsoName (h : isLdsoName ("ld-".toList ++ (ldso ++ (".so.".toList ++ z))) = true) (hdot : '.' ∉ ldso) :
    ∀ c ∈ ldso, c ∈ wordChars := by
  obtain ⟨m, t, hname, hm, -⟩ := (isLdsoName_iff _).mp h
  rcases hm with rfl | rfl | ⟨w, rfl, -, hw⟩
  · exact absurd hname (append_ne (t := "ld.".toList) 3 (by decide) (by decide) (by decide) _ ("so".toList ++ t))
  · exact absurd hname (append_ne (t := "ld6".toList) 3 (by decide) (by decide) (by decide) _ ("4.so".toList ++ t))
  · have he : ldso ++ (".so.".toList ++ z) = w ++ (".so".toList ++ t) := (List.append_right_inj "ld-".toList).mp hname
    have hrun : (ldso ++ (".so.".toList ++ z)).takeWhile (· ≠ '.') = ldso := takeWhile_name hdot _
    intro c hc
    rw [← hrun, he, List.takeWhile_append] at hc
    split at hc
    · exact hw c (by simpa using hc)
    · exact hw c ((List.takeWhile_prefix _).subset hc)

theorem Recognised.ne_none (h : Recognised path) : ldLdsoAbi path ≠ none := by
  intro hnone
  have hrefuses := h.refuses fun ldso abi hl => by
    rw [← h.reads, hnone] at hl
    cases hl
  rw [hnone] at hrefuses
  cases hrefuses

theorem Recognised.regular (h : Recognised path) : Regular (basename path) where
  number z hname hz := by
    obtain ⟨v, hv⟩ := Option.ne_none_iff_exists'.mp hz
    have hread : ldLdsoAbi path = some (.ok ([], v.1)) := by
      rcases hname with hname | hname
      · exact ldLdsoAbi_linux hname hv
      · exact ldLdsoAbi_linux64 hname hv
    obtain ⟨hdigits, habi⟩ := ((h.reads _ _).mp hread).number hname
    exact hdigits.plain_iff.mp ⟨v.2, by rw [hv, ← habi]⟩
  object y hy hso hno hne := by
    have hres := ldLdsoAbi_netbsd hy hso hno
    rw [if_neg hne] at hres
    by_cases hlen : nameMax ≤ (y.takeWhile (· ≠ '_')).length
    · rw [if_pos hlen] at hres
      exact absurd hres h.ne_none
    · rw [if_neg hlen] at hres
      rcases ((h.reads _ _).mp hres).of_ne hne with ⟨hscore, hname⟩ | ⟨z, hname, -⟩
      · rw [hy] at hname
        exact ⟨_, List.append_cancel_left hname, hscore, Nat.lt_of_not_le hlen⟩
      · rw [hy] at hname
        exact absurd hname (append_ne 3 (by decide) (by decide) (by decide) _ _)
  short y hy := Nat.lt_of_not_le fun hlen => h.ne_none (ldLdsoAbi_long hy hlen)
  named ldso z hname hne hdot hz := by
    obtain ⟨v, hv⟩ := Option.ne_none_iff_exists'.mp hz
    have hrun : (ldso ++ (".so.".toList ++ z)).takeWhile (· ≠ '.') = ldso := takeWhile_name hdot _
    have hshort : ldso.length < nameMax := Nat.lt_of_not_le fun hlen =>
      h.ne_none (ldLdsoAbi_long hname (by rw [hrun]; exact hlen))
    have hread := ldLdsoAbi_named hname hne hdot hshort hv
    rcases ((h.reads _ _).mp hread).of_ne hne with ⟨-, he⟩ | ⟨u, he, hdigits, habi⟩
    · exact absurd (hname.symm.trans he) (append_ne 3 (by decide) (by decide) (by decide) _ _)
    · obtain rfl : z = u := List.append_cancel_left (List.append_cancel_left (List.append_cancel_left (hname.symm.trans he)))
      refine ⟨hdigits.plain_iff.mp ⟨v.2, by rw [hv, ← habi]⟩, ?_⟩
      by_cases hscore : "_so".toList <:+: basename path
      · exact .inl hscore
      · have hmatch := h.isLdso hscore _ _ hread
        rw [hname] at hmatch
        exact .inr (word_of_isLdsoName hmatch hdot)

theorem readName_of_ok (h : ldLdsoAbi path = some (.ok (ldso, abi))) : ReadName (basename path) ldso abi := by
  rcases ldLdsoAbi_cases path with ⟨l, n, h', hread⟩ | h' | ⟨h', -⟩
  · rw [h'] at h
    obtain ⟨rfl, rfl⟩ := Prod.mk.inj (Except.ok.inj (Option.some.inj h))
    exact hread
  · rw [h'] at h
    cases Option.some.inj h
  · rw [h'] at h
    cases h

/-- The names that are taken as they should be. -/
theorem recognised_iff (path : Str) : Recognised path ↔ Regular (basename path) := by
  refine ⟨Recognised.regular, fun hR => ⟨fun ldso abi => ⟨fun h => ?_, fun h => ldLdsoAbi_read (hR.readName h)⟩, fun hnot => ?_,
    fun hscore ldso abi h => hR.isLdsoName (readName_of_ok h) hscore⟩⟩
  · exact hR.loaderName (readName_of_ok h)
  · rcases ldLdsoAbi_cases path with ⟨ldso, abi, -, hread⟩ | h | ⟨-, hlong⟩
    · exact absurd (hR.loaderName hread) (hnot ldso abi)
    · exact h
    · exact absurd hlong hR.not_long

/-- `ld.conf` is taken for a loader of NetBSD, and `__is_ldso` does not know it. -/
theorem ldLdsoAbi_conf : ldLdsoAbi "/etc/ld.conf".toList = some (.ok ("conf".toList, -1)) ∧
    isLdsoName "ld.conf".toList = false ∧ ¬ Recognised "/etc/ld.conf".toList := by
  have hread : ldLdsoAbi "/etc/ld.conf".toList = some (.ok ("conf".toList, -1)) := by decide
  have hmatch : isLdsoName "ld.conf".toList = false := by decide
  refine ⟨hread, hmatch, fun h => ?_⟩
  have hname : basename "/etc/ld.conf".toList = "ld.conf".toList := by decide
  have hldso := h.isLdso (by rw [hname]; decide) _ _ hread
  rw [hname, hmatch] at hldso
  cases hldso

end Iamroot
