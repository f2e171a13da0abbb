import Iamroot.LdsoName
import Iamroot.RegexpRuns

/-!
# The names that the engine recognises

`dso_init` compiles two expressions once, and `__is_ldso` and `__is_lib` run them on one
name after the other. What they answer is what the expressions say, in every order of
calls.
-/

namespace Iamroot.Dso

open RegularExpression Regexp

/-! ## The two expressions -/

def ldsoExp : Str := "^ld(64|-[[:alnum:]._-]+)?\\.so(\\.[[:digit:]]+)?$".toList

def libExp : Str := "^lib[[:alnum:]+._-]+\\.so(\\.[[:alnum:]_-]+)*$".toList

def alnumChars : Str := "0123456789ABCDEFGHIJKLMNOPQRSTUVWXYZabcdefghijklmnopqrstuvwxyz".toList

/-- `^lib[[:alnum:]+._-]+\.so(\.[[:alnum:]_-]+)*$` -/
def reLib : RegularExpression Char :=
  spelled "lib".toList * (oneOrMore (alnumChars ++ "+._-".toList) *
    (spelled ".so".toList * (spelled ".".toList * oneOrMore (alnumChars ++ "_-".toList)).star))

def isLibName (path : Str) : Bool := reLib.rmatch path

structure State where
  reLdso : Option Regex
  reLib : Option Regex

def compiled (exp : Str) : Option Regex → Option Regex
  | some R => some R
  | none => (jimRegcomp exp).toOption

def dsoInit (d : State) : State :=
  match compiled ldsoExp d.reLdso with
  | none => d
  | some ldso => ⟨some ldso, compiled libExp d.reLib⟩

def dsoFini (_ : State) : State := ⟨none, none⟩

/-- The body that `__is_ldso` and `__is_lib` share. -/
def isName (fuel : Nat) (re : Option Regex) (path : Str) : Option (Bool × Option Regex) :=
  match re with
  | none => some (false, none)
  | some R => (jimRegexec fuel R path).map fun (b, st) => (b, some { R with program := st.program })

def isLdso (fuel : Nat) (d : State) (path : Str) : Option (Bool × State) :=
  (isName fuel d.reLdso path).map fun (b, re) => (b, { d with reLdso := re })

def isLib (fuel : Nat) (d : State) (path : Str) : Option (Bool × State) :=
  (isName fuel d.reLib path).map fun (b, re) => (b, { d with reLib := re })

inductive NameCall where
  | init
  | fini
  | isLdso (path : Str)
  | isLib (path : Str)
  deriving DecidableEq

namespace NameCall

def Fits : NameCall → Prop
  | isLdso path | isLib path => nul ∉ path ∧ (path.length : Int) ≤ maxRepCount
  | _ => True

instance : (c : NameCall) → Decidable c.Fits
  | init | fini => .isTrue trivial
  | isLdso path | isLib path => inferInstanceAs (Decidable (nul ∉ path ∧ (path.length : Int) ≤ maxRepCount))

def run (fuel : Nat) (d : State) : NameCall → Option (Option Bool × State)
  | init => some (none, dsoInit d)
  | fini => some (none, dsoFini d)
  | isLdso path => (Dso.isLdso fuel d path).map fun (b, d) => (some b, d)
  | isLib path => (Dso.isLib fuel d path).map fun (b, d) => (some b, d)

def answer (ready : Bool) : NameCall → Option Bool × Bool
  | init => (none, true)
  | fini => (none, false)
  | isLdso path => (some (ready && isLdsoName path), ready)
  | isLib path => (some (ready && isLibName path), ready)

end NameCall

def nameCalls (fuel : Nat) : State → List NameCall → Option (List (Option Bool))
  | _, [] => some []
  | d, c :: cs =>
    match c.run fuel d with
    | none => none
    | some (b, d) => (nameCalls fuel d cs).map (b :: ·)

def answers : Bool → List NameCall → List (Option Bool)
  | _, [] => []
  | ready, c :: cs => (c.answer ready).1 :: answers (c.answer ready).2 cs

/-! ## Trees as regular expressions -/

/-- In the text, the tree matches what the expression does, from the places that have `B`. -/
def Reads (text : Str) (B : Nat → Prop) (r : Re) (P : RegularExpression Char) : Prop :=
  ∀ i j, r.Match text i j ↔ B i ∧ ∃ w, P.rmatch w = true ∧ w <+: text.drop i ∧ j = i + w.length

abbrev Anywhere : Nat → Prop := fun _ => True

abbrev Front : Nat → Prop := fun i => i = 0

section
variable {text cs : Str} {B : Nat → Prop} {r s : Re} {P Q : RegularExpression Char} {ranges : List CharRange} {i j : Nat}

theorem prefix_drop {u v : Str} : u ++ v <+: text.drop i ↔ u <+: text.drop i ∧ v <+: text.drop (i + u.length) := by
  constructor
  · intro hm
    obtain ⟨y, hy⟩ := hm
    rw [← List.drop_drop, ← hy, List.append_assoc, List.drop_left]
    exact ⟨List.prefix_append u _, List.prefix_append v y⟩
  · intro hm
    obtain ⟨⟨y, hy⟩, hv⟩ := hm
    rw [← List.drop_drop, ← hy, List.drop_left] at hv
    rw [← hy]
    exact (List.prefix_append_right_inj u).mpr hv

theorem reads_bol : Reads text Front (.leaf .bol) 1 := by
  intro i j
  have hmatch : (Re.leaf .bol).Match text i j ↔ (if i = 0 then some i else none) = some j := Iff.rfl
  rw [hmatch, Option.ite_none_right_eq_some]
  constructor
  · intro hm
    obtain ⟨hi, hj⟩ := hm
    exact ⟨hi, [], rfl, List.nil_prefix, (Option.some.inj hj).symm⟩
  · intro hm
    obtain ⟨hi, w, hw, _, hj⟩ := hm
    obtain rfl := (one_rmatch_iff w).mp hw
    exact ⟨hi, congrArg some hj.symm⟩

theorem reads_exactly (cs : Str) : Reads text Anywhere (.leaf (.exactly (cs.map fun c => (c.toNat : Int)))) (spelled cs) := by
  intro i j
  have hmatch : (Re.leaf (.exactly (cs.map fun c => (c.toNat : Int)))).Match text i j ↔
      (if (cs.map fun c => (c.toNat : Int)) <+: (text.drop i).map (fun c => (c.toNat : Int))
        then some (i + (cs.map fun c => (c.toNat : Int)).length) else none) = some j := Iff.rfl
  have hinj : Function.Injective fun c : Char => (c.toNat : Int) := fun c d h => Char.toNat_inj.mp (Int.ofNat_inj.mp h)
  rw [hmatch, Option.ite_none_right_eq_some, List.length_map, List.prefix_map_iff_of_injective hinj]
  constructor
  · intro hm
    obtain ⟨hcs, hj⟩ := hm
    exact ⟨trivial, cs, (rmatch_spelled cs cs).mpr rfl, hcs, (Option.some.inj hj).symm⟩
  · intro hm
    obtain ⟨_, w, hw, hcs, hj⟩ := hm
    obtain rfl := (rmatch_spelled cs w).mp hw
    exact ⟨hcs, congrArg some hj.symm⟩

theorem reads_set (hcs : ∀ c : Char, c ∈ cs ↔ inRanges ranges c.toNat = true) :
    Reads text Anywhere (.leaf (.set false ranges)) (oneOf cs) := by
  intro i j
  have hmatch : (Re.leaf (.set false ranges)).Match text i j ↔
      (if i < text.length ∧ inRanges ranges (peek (text.drop i)).toNat ≠ false then some (i + 1) else none) = some j := Iff.rfl
  rw [hmatch, Option.ite_none_right_eq_some]
  constructor
  · intro hm
    obtain ⟨⟨hi, hin⟩, hj⟩ := hm
    have hdrop := List.drop_eq_getElem_cons hi
    rw [hdrop] at hin ⊢
    have hmem : text[i] ∈ cs := (hcs _).mpr (eq_true_of_ne_false hin)
    exact ⟨trivial, [text[i]], (rmatch_oneOf cs _).mpr ⟨_, hmem, rfl⟩, ⟨_, rfl⟩, (Option.some.inj hj).symm⟩
  · intro hm
    obtain ⟨_, w, hw, ⟨y, hy⟩, hj⟩ := hm
    obtain ⟨c, hc, rfl⟩ := (rmatch_oneOf cs w).mp hw
    have hi : i < text.length := by
      by_contra hge
      rw [List.drop_eq_nil_of_le (by omega)] at hy
      cases hy
    have hin : inRanges ranges (peek (text.drop i)).toNat ≠ false := by
      rw [← hy]
      exact ne_false_of_eq_true ((hcs c).mp hc)
    exact ⟨⟨hi, hin⟩, congrArg some hj.symm⟩

theorem Reads.branch (h : Reads text B r P) : Reads text B (.branch r) P := h

theorem Reads.group (no : Int) (h : Reads text B r P) : Reads text B (.group no r) P := h

theorem Reads.cat (hr : Reads text B r P) (hs : Reads text Anywhere s Q) : Reads text B (.cat r s) (P * Q) := by
  intro i j
  have hmatch : (Re.cat r s).Match text i j ↔ ∃ k, r.Match text i k ∧ s.Match text k j := Iff.rfl
  rw [hmatch]
  constructor
  · intro hm
    obtain ⟨k, hrk, hsk⟩ := hm
    obtain ⟨hB, u, hu, hpu, rfl⟩ := (hr i k).mp hrk
    obtain ⟨_, v, hv, hpv, rfl⟩ := (hs _ j).mp hsk
    refine ⟨hB, u ++ v, (mul_rmatch_iff P Q _).mpr ⟨u, v, rfl, hu, hv⟩, prefix_drop.mpr ⟨hpu, hpv⟩, ?_⟩
    rw [List.length_append, Nat.add_assoc]
  · intro hm
    obtain ⟨hB, w, hw, hp, hj⟩ := hm
    obtain ⟨u, v, rfl, hu, hv⟩ := (mul_rmatch_iff P Q w).mp hw
    obtain ⟨hpu, hpv⟩ := prefix_drop.mp hp
    rw [List.length_append, ← Nat.add_assoc] at hj
    exact ⟨i + u.length, (hr _ _).mpr ⟨hB, u, hu, hpu, rfl⟩, (hs _ _).mpr ⟨trivial, v, hv, hpv, hj⟩⟩

theorem Reads.alt (hr : Reads text B r P) (hs : Reads text B s Q) : Reads text B (.alt r s) (P + Q) := by
  intro i j
  have hmatch : (Re.alt r s).Match text i j ↔ r.Match text i j ∨ s.Match text i j := Iff.rfl
  rw [hmatch, hr, hs]
  simp only [add_rmatch_iff, or_and_right, exists_or, and_or_left]

theorem Reads.times (h : Reads text Anywhere r P) : ∀ n i, Times (r.Match text) n i j ↔
    ∃ ws : List Str, ws.length = n ∧ (∀ w ∈ ws, P.rmatch w = true) ∧ ws.flatten <+: text.drop i ∧ j = i + ws.flatten.length := by
  intro n
  induction n with
  | zero =>
    intro i
    constructor
    · intro (hj : i = j)
      exact ⟨[], rfl, by simp, List.nil_prefix, hj.symm⟩
    · intro hm
      obtain ⟨ws, hlen, _, _, hj⟩ := hm
      rw [List.length_eq_zero_iff.mp hlen] at hj
      exact hj.symm
  | succ n ih =>
    intro i
    have htimes : Times (r.Match text) (n + 1) i j ↔ ∃ k, r.Match text i k ∧ Times (r.Match text) n k j := Iff.rfl
    rw [htimes]
    constructor
    · intro hm
      obtain ⟨k, hk, hrest⟩ := hm
      obtain ⟨_, w, hw, hpw, rfl⟩ := (h i k).mp hk
      obtain ⟨ws, rfl, hws, hpws, rfl⟩ := (ih _).mp hrest
      refine ⟨w :: ws, rfl, List.forall_mem_cons.mpr ⟨hw, hws⟩, prefix_drop.mpr ⟨hpw, hpws⟩, ?_⟩
      rw [List.flatten_cons, List.length_append, Nat.add_assoc]
    · intro hm
      obtain ⟨ws, hlen, hws, hp, hj⟩ := hm
      obtain ⟨w, ws, rfl⟩ := List.exists_cons_of_length_eq_add_one hlen
      obtain ⟨hw, hws⟩ := List.forall_mem_cons.mp hws
      obtain ⟨hpw, hpws⟩ := prefix_drop.mp hp
      rw [List.flatten_cons, List.length_append, ← Nat.add_assoc] at hj
      exact ⟨_, (h _ _).mpr ⟨trivial, w, hw, hpw, rfl⟩, (ih _).mpr ⟨ws, Nat.succ.inj hlen, hws, hpws, hj⟩⟩

theorem Reads.opt (h : Reads text Anywhere r P) : Reads text Anywhere (.repx false 0 1 0 r) (1 + P) := by
  intro i j
  have hmatch : (Re.repx false 0 1 0 r).Match text i j ↔
      ∃ n : Nat, (0 : Int) ≤ n ∧ (n : Int) ≤ 1 ∧ Times (r.Match text) n i j := Iff.rfl
  rw [hmatch]
  constructor
  · intro hm
    obtain ⟨n, _, hn, ht⟩ := hm
    obtain ⟨ws, rfl, hws, hp, hj⟩ := (h.times n i).mp ht
    refine ⟨trivial, ws.flatten, (add_rmatch_iff 1 P _).mpr ?_, hp, hj⟩
    obtain _ | ⟨w, _ | ⟨v, ws⟩⟩ := ws
    · exact .inl rfl
    · rw [List.flatten_singleton]
      exact .inr (hws w (List.mem_singleton_self w))
    · exact absurd hn (by simp)
  · intro hm
    obtain ⟨_, w, hw, hp, hj⟩ := hm
    obtain hw | hw := (add_rmatch_iff 1 P w).mp hw
    · obtain rfl := (one_rmatch_iff w).mp hw
      exact ⟨0, by decide, by decide, hj.symm⟩
    · refine ⟨1, by decide, by decide, (h.times 1 i).mpr ⟨[w], rfl, ?_, ?_, ?_⟩⟩
      · exact fun v hv => List.mem_singleton.mp hv ▸ hw
      · rwa [List.flatten_singleton]
      · rwa [List.flatten_singleton]

theorem length_le_flatten {ws : List Str} (h : ∀ w ∈ ws, w ≠ []) : ws.length ≤ ws.flatten.length := by
  induction ws with
  | nil => exact Nat.zero_le _
  | cons w ws ih =>
    obtain ⟨hw, hws⟩ := List.forall_mem_cons.mp h
    have hpos := List.length_pos_iff.mpr hw
    have hrest := ih hws
    rw [List.flatten_cons, List.length_append, List.length_cons]
    omega

theorem ne_nil_of_rmatch {w : Str} (hne : P.rmatch [] = false) (hw : P.rmatch w = true) : w ≠ [] := by
  intro he
  rw [he, hne] at hw
  cases hw

theorem count_le {ws : List Str} (hws : ∀ w ∈ ws, P.rmatch w = true) (hne : P.rmatch [] = false)
    (hp : ws.flatten <+: text.drop i) (hlen : (text.length : Int) ≤ maxRepCount) : (ws.length : Int) ≤ maxRepCount := by
  have hcount : ws.length ≤ ws.flatten.length := length_le_flatten fun w hw => ne_nil_of_rmatch hne (hws w hw)
  have hle := hp.length_le
  rw [List.length_drop] at hle
  omega

theorem star_flatten {ws : List Str} (hws : ∀ w ∈ ws, P.rmatch w = true) (hne : P.rmatch [] = false) :
    P.star.rmatch ws.flatten = true :=
  (star_rmatch_iff P _).mpr ⟨ws, rfl, fun w hw => ⟨ne_nil_of_rmatch hne (hws w hw), hws w hw⟩⟩

theorem Reads.star (h : Reads text Anywhere r P) (hne : P.rmatch [] = false) (hlen : (text.length : Int) ≤ maxRepCount) :
    Reads text Anywhere (.repx false 0 maxRepCount 0 r) P.star := by
  intro i j
  have hmatch : (Re.repx false 0 maxRepCount 0 r).Match text i j ↔
      ∃ n : Nat, (0 : Int) ≤ n ∧ (n : Int) ≤ maxRepCount ∧ Times (r.Match text) n i j := Iff.rfl
  rw [hmatch]
  constructor
  · intro hm
    obtain ⟨n, _, _, ht⟩ := hm
    obtain ⟨ws, _, hws, hp, hj⟩ := (h.times n i).mp ht
    exact ⟨trivial, ws.flatten, star_flatten hws hne, hp, hj⟩
  · intro hm
    obtain ⟨_, w, hw, hp, hj⟩ := hm
    obtain ⟨ws, rfl, hws⟩ := (star_rmatch_iff P w).mp hw
    have hall : ∀ w ∈ ws, P.rmatch w = true := fun w hw => (hws w hw).2
    exact ⟨ws.length, by omega, count_le hall hne hp hlen, (h.times _ i).mpr ⟨ws, rfl, hall, hp, hj⟩⟩

theorem Reads.plus {l : Leaf} (h : Reads text Anywhere (.leaf l) P) (hne : P.rmatch [] = false)
    (hlen : (text.length : Int) ≤ maxRepCount) : Reads text Anywhere (.rep false 1 maxRepCount l) (P * P.star) := by
  intro i j
  have hmatch : (Re.rep false 1 maxRepCount l).Match text i j ↔
      ∃ n : Nat, (1 : Int) ≤ n ∧ (n : Int) ≤ maxRepCount ∧ Times ((Re.leaf l).Match text) n i j := Iff.rfl
  rw [hmatch]
  constructor
  · intro hm
    obtain ⟨n, hmin, _, ht⟩ := hm
    obtain ⟨ws, rfl, hws, hp, hj⟩ := (h.times n i).mp ht
    obtain ⟨w, ws, rfl⟩ := List.exists_cons_of_length_pos (l := ws) (by omega)
    obtain ⟨hw, hrest⟩ := List.forall_mem_cons.mp hws
    exact ⟨trivial, _, (mul_rmatch_iff P P.star _).mpr ⟨w, ws.flatten, rfl, hw, star_flatten hrest hne⟩, hp, hj⟩
  · intro hm
    obtain ⟨_, v, hv, hp, hj⟩ := hm
    obtain ⟨w, u, rfl, hw, hu⟩ := (mul_rmatch_iff P P.star v).mp hv
    obtain ⟨ws, rfl, hws⟩ := (star_rmatch_iff P u).mp hu
    have hall : ∀ x ∈ w :: ws, P.rmatch x = true := List.forall_mem_cons.mpr ⟨hw, fun x hx => (hws x hx).2⟩
    exact ⟨(w :: ws).length, by simp, count_le hall hne hp hlen, (h.times _ i).mpr ⟨w :: ws, rfl, hall, hp, hj⟩⟩

/-- Between `^` and `$` the whole text is matched. -/
theorem Reads.finds (h : Reads text Front r P) : (Re.branch (.cat r (.leaf .eol))).Finds text ↔ P.rmatch text = true := by
  have hmatch : ∀ i j, (Re.branch (.cat r (.leaf .eol))).Match text i j ↔
      ∃ k, r.Match text i k ∧ (if k = text.length then some k else none) = some j := fun _ _ => Iff.rfl
  simp only [Option.ite_none_right_eq_some] at hmatch
  constructor
  · intro hm
    obtain ⟨i, _, j, hij⟩ := hm
    obtain ⟨k, hk, hend, _⟩ := (hmatch i j).mp hij
    obtain ⟨rfl, w, hw, hp, rfl⟩ := (h i k).mp hk
    rw [Nat.zero_add] at hend
    have htext : w = text := List.IsPrefix.eq_of_length hp hend
    rwa [← htext]
  · intro hP
    have hr : r.Match text 0 text.length := (h 0 _).mpr ⟨rfl, text, hP, List.prefix_rfl, (Nat.zero_add _).symm⟩
    exact ⟨0, Nat.zero_le _, text.length, (hmatch _ _).mpr ⟨_, hr, rfl, rfl⟩⟩

theorem Reads.congr (h : Reads text B r P) (hPQ : P.matches' = Q.matches') : Reads text B r Q := by
  intro i j
  simp only [h i j, rmatch_iff_matches', hPQ]

end

/-! ## The trees of the two expressions -/

theorem mem_iff_inRanges {cs : Str} {ranges : List CharRange} (hin : (cs.all fun c => inRanges ranges c.toNat) = true)
    (hall : ((List.range 128).all fun k => !inRanges ranges (k : Nat) || cs.contains (Char.ofNat k)) = true)
    (hhigh : (ranges.all fun r => r.2 < 128) = true) (c : Char) : c ∈ cs ↔ inRanges ranges c.toNat = true := by
  constructor
  · exact List.all_eq_true.mp hin c
  · intro h
    obtain ⟨r, hr, hc⟩ := List.any_eq_true.mp h
    have hle : (c.toNat : Int) ≤ r.2 := of_decide_eq_true (Bool.and_eq_true_iff.mp hc).2
    have hlt : r.2 < 128 := of_decide_eq_true (List.all_eq_true.mp hhigh r hr)
    have hmem := List.all_eq_true.mp hall c.toNat (List.mem_range.mpr (by omega))
    rw [Char.ofNat_toNat, h, Bool.not_true, Bool.false_or] at hmem
    exact List.contains_iff_mem.mp hmem

def alnumAnd (cs : Str) : List CharRange := classAlnum ++ cs.map fun c => ((c.toNat : Int), (c.toNat : Int))

def literal (s : Str) : Re := .leaf (.exactly (s.map fun c => (c.toNat : Int)))

def someOf (ranges : List CharRange) : Re := .rep false 1 maxRepCount (.set false ranges)

def ldsoRe : Re :=
  .branch (.cat (.cat (.cat (.cat (.cat (.leaf .bol) (literal "ld".toList))
    (.repx false 0 1 0 (.group 1 (.alt (literal "64".toList)
      (.branch (.cat (literal "-".toList) (someOf (alnumAnd "._-".toList))))))))
    (literal ".so".toList)) (.repx false 0 1 0 (.group 2 (.branch (.cat (literal ".".toList) (someOf classDigit))))))
    (.leaf .eol))

def libRe : Re :=
  .branch (.cat (.cat (.cat (.cat (.cat (.leaf .bol) (literal "lib".toList)) (someOf (alnumAnd "+._-".toList)))
    (literal ".so".toList))
    (.repx false 0 maxRepCount 0 (.group 1 (.branch (.cat (literal ".".toList) (someOf (alnumAnd "_-".toList)))))))
    (.leaf .eol))

theorem parse_ldsoExp : Regexp.parse ldsoExp = .ok ⟨ldsoRe, ⟨true, false, false⟩, 2, []⟩ := by decide +kernel

theorem parse_libExp : Regexp.parse libExp = .ok ⟨libRe, ⟨true, false, false⟩, 1, []⟩ := by decide +kernel

theorem mem_wordChars (c : Char) : c ∈ wordChars ↔ inRanges (alnumAnd "._-".toList) c.toNat = true :=
  mem_iff_inRanges (by decide) (by decide) (by decide) c

theorem mem_libChars (c : Char) : c ∈ alnumChars ++ "+._-".toList ↔ inRanges (alnumAnd "+._-".toList) c.toNat = true :=
  mem_iff_inRanges (by decide) (by decide) (by decide) c

theorem mem_versionChars (c : Char) : c ∈ alnumChars ++ "_-".toList ↔ inRanges (alnumAnd "_-".toList) c.toNat = true :=
  mem_iff_inRanges (by decide) (by decide) (by decide) c

theorem mem_digits (c : Char) : c ∈ digitChars ↔ inRanges classDigit c.toNat = true :=
  mem_iff_inRanges (by decide) (by decide) (by decide) c

section
variable {text cs : Str} {ranges : List CharRange}

theorem reads_someOf (hcs : ∀ c : Char, c ∈ cs ↔ inRanges ranges c.toNat = true) (hlen : (text.length : Int) ≤ maxRepCount) :
    Reads text Anywhere (someOf ranges) (oneOrMore cs) := by
  refine (reads_set hcs).plus ?_ hlen
  rw [Bool.eq_false_iff]
  intro h
  obtain ⟨c, _, hnil⟩ := (rmatch_oneOf cs []).mp h
  cases hnil

theorem ldsoRe_finds (hlen : (text.length : Int) ≤ maxRepCount) : ldsoRe.Finds text ↔ isLdsoName text = true := by
  have hword := (reads_exactly "64".toList).alt
    ((reads_exactly "-".toList).cat (reads_someOf mem_wordChars hlen)).branch
  have hversion := ((reads_exactly ".".toList).cat (reads_someOf mem_digits hlen)).branch
  have hall := (((reads_bol.cat (reads_exactly "ld".toList)).cat (hword.group 1).opt).cat
    (reads_exactly ".so".toList)).cat (hversion.group 2).opt
  refine (hall.congr (Q := reLdso) ?_).finds
  simp only [reLdso, matches'_mul, matches'_epsilon, one_mul, mul_assoc]

theorem libRe_finds (hlen : (text.length : Int) ≤ maxRepCount) : libRe.Finds text ↔ isLibName text = true := by
  have hversion := ((reads_exactly ".".toList).cat (reads_someOf mem_versionChars hlen)).branch
  have hall := (((reads_bol.cat (reads_exactly "lib".toList)).cat (reads_someOf mem_libChars hlen)).cat
    (reads_exactly ".so".toList)).cat ((hversion.group 1).star (by decide) hlen)
  refine (hall.congr (Q := reLib) ?_).finds
  simp only [reLib, matches'_mul, matches'_epsilon, one_mul, mul_assoc]

end

/-! ## Calls -/

/-- The expression, whatever counts the calls before have left, finds the names that `p` has. -/
def Tells (re : Option Regex) (p : Str → Bool) : Prop :=
  ∃ R r Q, re = some { R with program := Q } ∧ Dug R r ∧ r.Plain ∧ r.Used Q ∧
    ∀ text : Str, (text.length : Int) ≤ maxRepCount → (r.Finds text ↔ p text = true)

theorem Tells.of_regcomp {exp : Str} {R : Regex} {t : Parse} {p : Str → Bool} (hR : jimRegcomp exp = .ok R)
    (ht : Regexp.parse exp = .ok t) (hplain : t.re.Plain)
    (hp : ∀ text : Str, (text.length : Int) ≤ maxRepCount → (t.re.Finds text ↔ p text = true)) : Tells (some R) p := by
  have hdug := jimRegcomp_dug hR ht
  exact ⟨R, t.re, R.program, rfl, hdug, hplain, hdug.program ▸ Agree.refl, hp⟩

/-- One call answers, and leaves an expression that tells the same. -/
theorem Tells.answers {re : Option Regex} {p : Str → Bool} (h : Tells re p) {path : Str} (hnul : nul ∉ path)
    (hlen : (path.length : Int) ≤ maxRepCount) :
    ∃ re', Tells re' p ∧ ∃ N, ∀ n, N ≤ n → isName n re path = some (p path, re') := by
  obtain ⟨R, r, Q, rfl, hdug, hplain, hused, hp⟩ := h
  obtain ⟨⟨b, st⟩, ⟨N, hN⟩, ho⟩ := jimRegexec_run hdug hplain hnul hused
  have hst : r.Used st.program := ho.elim (·.2.2) (·.2.2)
  have hb : b = p path := by
    rw [Bool.eq_iff_iff, ← hp path hlen]
    obtain ⟨hb, hf, _⟩ | ⟨hb, hf, _⟩ := ho
    · exact iff_of_true hb hf
    · exact iff_of_false (Bool.eq_false_iff.mp hb) hf
  refine ⟨some { R with program := st.program }, ⟨R, r, st.program, rfl, hdug, hplain, hst, hp⟩, N, fun n hn => ?_⟩
  simp only [isName, hN n hn, Option.map_some, hb]

inductive Stands : Bool → State → Prop
  | ready {d : State} : Tells d.reLdso isLdsoName → Tells d.reLib isLibName → Stands true d
  | bare : Stands false ⟨none, none⟩

theorem compiled_tells {exp : Str} {t : Parse} {p : Str → Bool} (hok : (jimRegcomp exp).toOption.isSome = true)
    (ht : Regexp.parse exp = .ok t) (hplain : t.re.Plain)
    (hp : ∀ text : Str, (text.length : Int) ≤ maxRepCount → (t.re.Finds text ↔ p text = true)) : Tells (compiled exp none) p := by
  cases hR : jimRegcomp exp with
  | error e =>
    rw [hR] at hok
    cases hok
  | ok R =>
    have htells := Tells.of_regcomp hR ht hplain hp
    have hcompiled : compiled exp none = some R := by
      rw [compiled, hR]
      rfl
    rwa [hcompiled]

theorem compiled_ldsoExp : Tells (compiled ldsoExp none) isLdsoName :=
  compiled_tells (by decide +kernel) parse_ldsoExp (by simp +decide [ldsoRe, literal, someOf, Re.Plain, Leaf.Plain])
    fun _ => ldsoRe_finds

theorem compiled_libExp : Tells (compiled libExp none) isLibName :=
  compiled_tells (by decide +kernel) parse_libExp (by simp +decide [libRe, literal, someOf, Re.Plain, Leaf.Plain])
    fun _ => libRe_finds

theorem Tells.ne_none {re : Option Regex} {p : Str → Bool} (h : Tells re p) : ∃ R, re = some R := by
  obtain ⟨R, r, Q, hre, _⟩ := h
  exact ⟨_, hre⟩

theorem compiled_some (exp : Str) (R : Regex) : compiled exp (some R) = some R := rfl

theorem dsoInit_eq {a b : Option Regex} {R R' : Regex} (hldso : compiled ldsoExp a = some R) (hlib : compiled libExp b = some R') :
    dsoInit ⟨a, b⟩ = ⟨some R, some R'⟩ := by
  simp only [dsoInit, hldso, hlib]

theorem Stands.init {ready : Bool} {d : State} (h : Stands ready d) : Stands true (dsoInit d) := by
  cases h with
  | ready hldso hlib =>
    obtain ⟨ldso, lib⟩ := d
    obtain ⟨R, rfl⟩ := hldso.ne_none
    obtain ⟨R', rfl⟩ := hlib.ne_none
    rw [dsoInit_eq (compiled_some ldsoExp R) (compiled_some libExp R')]
    exact .ready hldso hlib
  | bare =>
    have hldso := compiled_ldsoExp
    have hlib := compiled_libExp
    obtain ⟨R, hR⟩ := hldso.ne_none
    obtain ⟨R', hR'⟩ := hlib.ne_none
    rw [hR] at hldso
    rw [hR'] at hlib
    rw [dsoInit_eq hR hR']
    exact .ready hldso hlib

theorem NameCall.run_stands {ready : Bool} {d : State} (h : Stands ready d) (c : NameCall) (hfits : c.Fits) :
    ∃ d', Stands (c.answer ready).2 d' ∧ ∃ N, ∀ n, N ≤ n → c.run n d = some ((c.answer ready).1, d') := by
  cases c with
  | init => exact ⟨dsoInit d, h.init, 0, fun _ _ => rfl⟩
  | fini => exact ⟨dsoFini d, .bare, 0, fun _ _ => rfl⟩
  | isLdso path =>
    cases h with
    | ready hldso hlib =>
      obtain ⟨re, hre, N, hN⟩ := hldso.answers hfits.1 hfits.2
      refine ⟨{ d with reLdso := re }, .ready hre hlib, N, fun n hn => ?_⟩
      simp only [NameCall.run, NameCall.answer, Dso.isLdso, hN n hn, Option.map_some, Bool.true_and]
    | bare => exact ⟨⟨none, none⟩, .bare, 0, fun _ _ => rfl⟩
  | isLib path =>
    cases h with
    | ready hldso hlib =>
      obtain ⟨re, hre, N, hN⟩ := hlib.answers hfits.1 hfits.2
      refine ⟨{ d with reLib := re }, .ready hldso hre, N, fun n hn => ?_⟩
      simp only [NameCall.run, NameCall.answer, Dso.isLib, hN n hn, Option.map_some, Bool.true_and]
    | bare => exact ⟨⟨none, none⟩, .bare, 0, fun _ _ => rfl⟩

theorem nameCalls_stands {ready : Bool} {d : State} (h : Stands ready d) (cs : List NameCall) (hfits : ∀ c ∈ cs, c.Fits) :
    ∃ N, ∀ n, N ≤ n → nameCalls n d cs = some (answers ready cs) := by
  induction cs generalizing ready d with
  | nil => exact ⟨0, fun _ _ => rfl⟩
  | cons c cs ih =>
    obtain ⟨hfit, hfits⟩ := List.forall_mem_cons.mp hfits
    obtain ⟨d', hd', N, hN⟩ := c.run_stands h hfit
    obtain ⟨N', hN'⟩ := ih hd' hfits
    refine ⟨max N N', fun n hn => ?_⟩
    have hfirst := hN n (le_trans (le_max_left N N') hn)
    have hrest := hN' n (le_trans (le_max_right N N') hn)
    simp only [nameCalls, hfirst, hrest, Option.map_some, answers]

/-- From the start, in every sequence of calls, the names are told by the expressions between `dso_init` and `dso_fini`. -/
theorem nameCalls_answers (cs : List NameCall) (hfits : ∀ c ∈ cs, c.Fits) :
    ∃ N, ∀ n, N ≤ n → nameCalls n ⟨none, none⟩ cs = some (answers false cs) :=
  nameCalls_stands .bare cs hfits

theorem nameCalls_answers_musl : ∃ N, ∀ n, N ≤ n → nameCalls n ⟨none, none⟩
    [.isLdso "ld.so".toList, .init, .isLib "ld-musl-x86_64.so.1".toList, .isLdso "ld-musl-x86_64.so.1".toList] =
      some [some false, none, some false, some true] := by
  have hrun := nameCalls_answers
    [.isLdso "ld.so".toList, .init, .isLib "ld-musl-x86_64.so.1".toList, .isLdso "ld-musl-x86_64.so.1".toList]
    (by decide)
  have hanswers : answers false [.isLdso "ld.so".toList, .init, .isLib "ld-musl-x86_64.so.1".toList,
      .isLdso "ld-musl-x86_64.so.1".toList] = [some false, none, some false, some true] := by decide
  rwa [hanswers] at hrun

end Iamroot.Dso
