import Mathlib.Algebra.Group.Nat.Defs
import Mathlib.Data.List.TakeWhile
import Iamroot.Basic

/-!
# Supplementary groups

`setgroups` prints the ids into `IAMROOT_GROUPS`, and `getgroups` parses them back.
No ids at all unset the variable, which then stands for the group of root. The
printer has `BUFSIZ` bytes, and the parser looks at `PATH_MAX` of them.
-/

namespace Iamroot

def ngroupsMax : Nat := 65536

/-! ## `setgroups` -/

def groupText (i : Nat) (id : Word) : Str := (if 0 < i then [' '] else []) ++ Nat.toDigits 10 id.toNat

def setgroupsLoop (bufsiz : Nat) : Nat → Str → List Word → Except Errno Str
  | _, buf, [] => .ok buf
  | i, buf, id :: list => do
    let s ← snprintf (groupText i id) (bufsiz - buf.length)
    setgroupsLoop bufsiz (i + 1) (buf ++ s) list

/-- The call and the variable after it. `nomem` is the failure of an allocation in `_setenv`. -/
def setgroups (bufsiz : Nat) (nomem : Option Errno) (list : List Word) (env : Option Str) : Except Errno Unit × Option Str :=
  if ngroupsMax < list.length then (.error .EINVAL, env)
  else if list.length = 0 then (.ok (), none)
  else
    match setgroupsLoop bufsiz 0 [] list with
    | .error e => (.error e, env)
    | .ok buf =>
      match nomem with
      | some e => (.error e, env)
      | none => (.ok (), some buf)

/-! ## `strtoul` with base 0 -/

def ulongMax : Nat := 2 ^ 64 - 1

def isSpace (c : Char) : Bool := c = ' ' || (9 ≤ c.toNat && c.toNat ≤ 13)

def digitValue (c : Char) : Nat :=
  if c.isDigit then c.toNat - 48
  else if c.isLower then c.toNat - 87
  else if c.isUpper then c.toNat - 55
  else 36

def numeral : Str → Nat × Str
  | '0' :: x :: d :: s => if (x = 'x' ∨ x = 'X') ∧ digitValue d < 16 then (16, d :: s) else (8, '0' :: x :: d :: s)
  | '0' :: s => (8, '0' :: s)
  | s => (10, s)

def magnitude (s : Str) : Nat :=
  let (b, s) := numeral s
  (s.takeWhile (digitValue · < b)).foldl (fun n c => b * n + digitValue c) 0

def sign : Str → Bool × Str
  | '-' :: s => (true, s)
  | '+' :: s => (false, s)
  | s => (false, s)

/-- The value, unless it overflows; text without a number has the value 0. -/
def strtoul (s : Str) : Except Errno Nat :=
  let (negative, s) := sign (s.dropWhile isSpace)
  if ulongMax < magnitude s then .error .ERANGE
  else .ok (if negative then (ulongMax + 1 - magnitude s) % (ulongMax + 1) else magnitude s)

/-! ## `getgroups` -/

structure Groups where
  listsize : Int
  list : Option (List Word)
  size : Nat

def idCallback (id : Str) (g : Groups) : Except Errno Groups := do
  let ul ← strtoul id
  if 0 < g.listsize ∧ ¬ (g.size : Int) < g.listsize then .error .EINVAL
  else .ok { g with
    list := if (g.size : Int) < g.listsize then g.list.map (·.set g.size (BitVec.ofNat 32 ul)) else g.list
    size := g.size + 1 }

def groupTokens (val : Str) : List Str := ((val.take pathMax).splitOn ' ').filter (· ≠ [])

def groupIterate : List Str → Groups → Except Errno Unit × Groups
  | [], g => (.ok (), g)
  | id :: ids, g =>
    match idCallback id g with
    | .error e => (.error e, g)
    | .ok g => groupIterate ids g

def getgroups (listsize : Int) (list : Option (List Word)) (env : Option Str) : Except Errno Nat × Option (List Word) :=
  if listsize ≠ 0 ∧ list = none then (.error .EINVAL, list)
  else
    let r := groupIterate (groupTokens (env.getD ['0'])) ⟨listsize, list, 0⟩
    (r.1.map fun _ => r.2.size, r.2.list)

/-! ## One id -/

section
variable {c : Char} {n : Nat} {s : Str}

theorem isDigit_iff : c.isDigit = true ↔ 48 ≤ c.toNat ∧ c.toNat ≤ 57 := by
  simp [Char.isDigit, UInt32.le_iff_toNat_le]

theorem digitValue_isDigit (h : c.isDigit = true) : digitValue c = c.toNat - 48 := if_pos h

theorem isSpace_isDigit (h : c.isDigit = true) : isSpace c = false := by
  have hc := isDigit_iff.mp h
  have hne : c ≠ ' ' := by
    rintro rfl
    simp at hc
  simp [isSpace, hne]
  omega

theorem sign_isDigit (h : c.isDigit = true) (s : Str) : sign (c :: s) = (false, c :: s) := by
  have hc := isDigit_iff.mp h
  unfold sign
  split
  · rename_i heq
    rw [(List.cons.inj heq).1] at hc
    simp at hc
  · rename_i heq
    rw [(List.cons.inj heq).1] at hc
    simp at hc
  · rfl

theorem isDigit_of_mem (h : c ∈ Nat.toDigits 10 n) : c.isDigit = true := Nat.isDigit_of_mem_toDigits (by decide) (by decide) h

theorem head_toDigits (hn : 0 < n) : (Nat.toDigits 10 n).head? ≠ some '0' := by
  induction n using Nat.strong_induction_on with
  | _ n ih =>
    rw [Nat.toDigits_eq_if (by decide)]
    split
    · rename_i hlt
      rw [List.head?_cons, ne_eq, Option.some.injEq]
      intro h
      have h0 := Nat.toNat_digitChar_sub_48_of_lt_ten hlt
      rw [h] at h0
      simp at h0
      omega
    · have hdiv := ih (n / 10) (by omega) (by omega)
      rw [List.head?_append_of_ne_nil _ Nat.toDigits_ne_nil]
      exact hdiv

theorem numeral_ten (h : s.head? ≠ some '0') : numeral s = (10, s) := by
  unfold numeral
  split
  · exact absurd rfl h
  · exact absurd rfl h
  · rfl

theorem foldl_digits {b : Nat} {l : List Char} (k : Nat) (hl : ∀ c ∈ l, c.isDigit = true) :
    l.foldl (fun n c => b * n + digitValue c) k = Nat.ofDigitChars b l k := by
  induction l generalizing k with
  | nil => rfl
  | cons c l ih =>
    obtain ⟨hc, hl⟩ := List.forall_mem_cons.mp hl
    rw [List.foldl_cons, Nat.ofDigitChars_cons, digitValue_isDigit hc, ih _ hl]
    rfl

theorem digitValue_lt_ten (h : c.isDigit = true) : digitValue c < 10 := by
  have := isDigit_iff.mp h
  rw [digitValue_isDigit h]
  omega

theorem magnitude_toDigits (n : Nat) : magnitude (Nat.toDigits 10 n) = n := by
  by_cases hn : n = 0
  · subst hn
    rw [Nat.toDigits_zero]
    decide
  · have hnum := numeral_ten (head_toDigits (Nat.pos_of_ne_zero hn))
    have hall : (Nat.toDigits 10 n).takeWhile (digitValue · < 10) = Nat.toDigits 10 n := by
      refine List.takeWhile_eq_self_iff.mpr fun c hc => ?_
      rw [decide_eq_true_eq]
      exact digitValue_lt_ten (isDigit_of_mem hc)
    unfold magnitude
    rw [hnum]
    show ((Nat.toDigits 10 n).takeWhile (digitValue · < 10)).foldl _ 0 = n
    rw [hall, foldl_digits 0 fun c hc => isDigit_of_mem hc, Nat.ofDigitChars_ten_toDigits]

theorem strtoul_toDigits (h : n ≤ ulongMax) : strtoul (Nat.toDigits 10 n) = .ok n := by
  obtain ⟨c, s, hs⟩ := List.exists_cons_of_ne_nil (Nat.toDigits_ne_nil (n := n) (b := 10))
  have hc : c.isDigit = true := isDigit_of_mem (hs ▸ List.mem_cons_self)
  have hdrop : (Nat.toDigits 10 n).dropWhile isSpace = Nat.toDigits 10 n := by
    rw [hs, List.dropWhile_cons_of_neg (by simp [isSpace_isDigit hc])]
  have hsign := sign_isDigit hc s
  have hmag := magnitude_toDigits n
  rw [hs] at hdrop hmag ⊢
  rw [strtoul, hdrop, hsign]
  show (if ulongMax < magnitude (c :: s) then _ else Except.ok (magnitude (c :: s))) = _
  rw [hmag, if_neg (by omega)]

end

/-! ## The text of a list -/

def groupsText (list : List Word) : Str := [' '].intercalate (list.map fun id => Nat.toDigits 10 id.toNat)

def Storable (bufsiz : Nat) (list : List Word) : Prop := list.length ≤ ngroupsMax ∧ (groupsText list).length < bufsiz

section
variable {bufsiz : Nat} {list : List Word}

theorem blank_not_mem_toDigits (n : Nat) : ' ' ∉ Nat.toDigits 10 n := by
  intro h
  have := isDigit_iff.mp (isDigit_of_mem h)
  simp at this

theorem groupTokens_groupsText (hne : list ≠ []) (hlen : (groupsText list).length ≤ pathMax) :
    groupTokens (groupsText list) = list.map fun id => Nat.toDigits 10 id.toNat := by
  have hblank : ∀ s ∈ list.map fun id => Nat.toDigits 10 id.toNat, ' ' ∉ s := by
    intro s hs
    obtain ⟨id, -, rfl⟩ := List.mem_map.mp hs
    exact blank_not_mem_toDigits _
  have hsplit : (groupsText list).splitOn ' ' = list.map fun id => Nat.toDigits 10 id.toNat :=
    List.splitOn_intercalate _ hblank (by simpa using hne)
  rw [groupTokens, List.take_of_length_le hlen, hsplit, List.filter_eq_self]
  intro s hs
  obtain ⟨id, -, rfl⟩ := List.mem_map.mp hs
  simp

def textFrom (i : Nat) : List Word → Str
  | [] => []
  | id :: list => groupText i id ++ textFrom (i + 1) list

theorem textFrom_succ (i : Nat) (list : List Word) :
    textFrom (i + 1) list = (list.map fun id => ' ' :: Nat.toDigits 10 id.toNat).flatten := by
  induction list generalizing i with
  | nil => rfl
  | cons id list ih =>
    rw [textFrom, ih, groupText, if_pos (by omega)]
    rfl

theorem textFrom_zero (list : List Word) : textFrom 0 list = groupsText list := by
  cases list with
  | nil => rfl
  | cons id list =>
    rw [textFrom, textFrom_succ, groupText, if_neg (by omega), groupsText, List.map_cons, List.nil_append]
    induction list generalizing id with
    | nil => simp
    | cons id' list ih =>
      rw [List.map_cons, List.map_cons, List.flatten_cons, List.intercalate_cons_cons, ← ih id']
      simp

/-- The loop ends with the text when it fits. -/
theorem setgroupsLoop_eq (i : Nat) (buf : Str) (list : List Word) (hbuf : buf.length < bufsiz ∨ list ≠ []) :
    setgroupsLoop bufsiz i buf list =
      if (buf ++ textFrom i list).length < bufsiz then .ok (buf ++ textFrom i list) else .error .ENOSPC := by
  induction list generalizing i buf with
  | nil =>
    rw [textFrom, List.append_nil, if_pos (hbuf.resolve_right fun h => h rfl)]
    rfl
  | cons id list ih =>
    have hlen : (buf ++ textFrom i (id :: list)).length = buf.length + (groupText i id).length + (textFrom (i + 1) list).length := by
      simp [textFrom]
      omega
    rw [setgroupsLoop, snprintf]
    by_cases h : (groupText i id).length < bufsiz - buf.length
    · rw [if_pos h]
      show setgroupsLoop bufsiz (i + 1) (buf ++ groupText i id) list = _
      rw [ih _ _ (.inl (by rw [List.length_append]; omega)), List.append_assoc]
      rfl
    · rw [if_neg h, if_neg (by omega)]
      rfl

theorem setgroups_stores {nomem : Option Errno} (env : Option Str) (hne : list ≠ []) :
    setgroups bufsiz nomem list env =
      if ngroupsMax < list.length then (.error .EINVAL, env)
      else if (groupsText list).length < bufsiz then nomem.elim (.ok (), some (groupsText list)) fun e => (.error e, env)
      else (.error .ENOSPC, env) := by
  have hpos := List.length_pos_iff.mpr hne
  rw [setgroups, if_neg (show ¬ list.length = 0 by omega), setgroupsLoop_eq 0 [] list (.inr hne), List.nil_append, textFrom_zero]
  split
  · rfl
  · by_cases hfits : (groupsText list).length < bufsiz
    · rw [if_pos hfits, if_pos hfits]
      cases nomem with
      | none => rfl
      | some e => rfl
    · rw [if_neg hfits, if_neg hfits]

end

/-! ## What is read back -/

section
variable {listsize : Int} {arr : Option (List Word)} {size : Nat} {list : List Word}

theorem idCallback_toDigits (id : Word) (g : Groups) : idCallback (Nat.toDigits 10 id.toNat) g =
    if 0 < g.listsize ∧ ¬ (g.size : Int) < g.listsize then .error .EINVAL
    else .ok { g with
      list := if (g.size : Int) < g.listsize then g.list.map (·.set g.size id) else g.list
      size := g.size + 1 } := by
  have hid : id.toNat ≤ ulongMax := by
    have := id.isLt
    unfold ulongMax
    omega
  have hofNat : BitVec.ofNat 32 id.toNat = id := by simp
  rw [idCallback, strtoul_toDigits hid]
  show (if _ then _ else Except.ok { g with list := _, size := _ }) = _
  rw [hofNat]

def idTokens (list : List Word) : List Str := list.map fun id => Nat.toDigits 10 id.toNat

theorem groupIterate_cons (id : Word) (list : List Word) (g : Groups) (h : ¬ (0 < g.listsize ∧ ¬ (g.size : Int) < g.listsize)) :
    groupIterate (idTokens (id :: list)) g = groupIterate (idTokens list) { g with
      list := if (g.size : Int) < g.listsize then g.list.map (·.set g.size id) else g.list
      size := g.size + 1 } := by
  show groupIterate (Nat.toDigits 10 id.toNat :: idTokens list) g = _
  rw [groupIterate, idCallback_toDigits, if_neg h]

theorem groupIterate_counts (size : Nat) (list : List Word) (arr : Option (List Word)) :
    groupIterate (idTokens list) ⟨0, arr, size⟩ = (.ok (), ⟨0, arr, size + list.length⟩) := by
  induction list generalizing size with
  | nil => rfl
  | cons id list ih =>
    rw [groupIterate_cons _ _ _ (by simp)]
    have hsize : ¬ (size : Int) < 0 := by omega
    simp only [hsize, if_false]
    rw [ih, List.length_cons]
    have hadd : size + 1 + list.length = size + (list.length + 1) := by omega
    rw [hadd]

theorem groupIterate_stores (arr : List Word) (hroom : (size + list.length : Nat) ≤ listsize) (harr : size + list.length ≤ arr.length) :
    groupIterate (idTokens list) ⟨listsize, some arr, size⟩ =
      (.ok (), ⟨listsize, some (arr.take size ++ list ++ arr.drop (size + list.length)), size + list.length⟩) := by
  induction list generalizing size arr with
  | nil => simp [idTokens, groupIterate]
  | cons id list ih =>
    rw [List.length_cons] at hroom harr
    have hsize : (size : Int) < listsize := by omega
    have hlt : size < arr.length := by omega
    have hadd : size + 1 + list.length = size + (list.length + 1) := by omega
    rw [groupIterate_cons _ _ _ fun h => h.2 hsize]
    simp only [hsize, if_true, Option.map_some]
    rw [ih (arr.set size id) (by omega) (by rw [List.length_set]; omega), List.length_cons, hadd, List.take_add_one,
      List.getElem?_set_self hlt, List.take_set_of_le (Nat.le_refl _), List.drop_set_of_lt (by omega)]
    simp

theorem groupIterate_fails (arr : Option (List Word)) (hpos : 0 < listsize) (hsize : (size : Int) ≤ listsize)
    (hroom : listsize < (size + list.length : Nat)) :
    (groupIterate (idTokens list) ⟨listsize, arr, size⟩).1 = .error .EINVAL := by
  induction list generalizing size arr with
  | nil =>
    rw [List.length_nil] at hroom
    omega
  | cons id list ih =>
    rw [List.length_cons] at hroom
    by_cases h : (size : Int) < listsize
    · rw [groupIterate_cons _ _ _ fun h' => h'.2 h]
      have hsize' : ((size + 1 : Nat) : Int) ≤ listsize := by omega
      have hroom' : listsize < (size + 1 + list.length : Nat) := by omega
      exact ih _ hsize' hroom'
    · show (groupIterate (Nat.toDigits 10 id.toNat :: idTokens list) _).1 = _
      rw [groupIterate, idCallback_toDigits, if_pos ⟨hpos, h⟩]

end

structure ReadsBack (list : List Word) (env : Option Str) : Prop where
  counts : getgroups 0 none env = (.ok list.length, none)
  stores : ∀ (n : Int) (arr : List Word), 0 < n → list.length ≤ n → n ≤ arr.length →
    getgroups n (some arr) env = (.ok list.length, some (list ++ arr.drop list.length))
  fails : ∀ (n : Int) (arr : List Word), 0 < n → n < list.length → (getgroups n (some arr) env).1 = .error .EINVAL

theorem readsBack_of_tokens {list : List Word} {env : Option Str} (h : groupTokens (env.getD ['0']) = idTokens list) :
    ReadsBack list env where
  counts := by
    rw [getgroups, if_neg (by simp), h, groupIterate_counts, Nat.zero_add]
    rfl
  stores := by
    intro n arr hn hlen harr
    rw [getgroups, if_neg (by simp), h, groupIterate_stores arr (by omega) (by omega)]
    simp [Except.map]
  fails := by
    intro n arr hn hlen
    have hfail := @groupIterate_fails n 0 list (some arr) hn (by omega) (by omega)
    rw [getgroups, if_neg (by simp), h]
    dsimp only
    rw [hfail]
    rfl

/-- A list that was stored is read back, and the list without ids as the group of root; a list that cannot be stored
is refused, and the variable is what it was. -/
theorem groups_round_trip (bufsiz : Nat) (nomem : Option Errno) (list : List Word) (env : Option Str) :
    (∀ env', setgroups bufsiz nomem list env = (.ok (), env') →
      (list = [] → env' = none ∧ ReadsBack [0] env') ∧ (list ≠ [] → (groupsText list).length ≤ pathMax → ReadsBack list env')) ∧
    (list ≠ [] → ¬ (Storable bufsiz list ∧ nomem = none) → ∃ e, setgroups bufsiz nomem list env = (.error e, env)) := by
  constructor
  · intro env' hset
    constructor
    · rintro rfl
      have henv : none = env' := congrArg Prod.snd hset
      rw [← henv]
      exact ⟨rfl, readsBack_of_tokens (by decide)⟩
    · intro hne hlen
      rw [setgroups_stores env hne] at hset
      split at hset
      · simp at hset
      · split at hset
        · cases nomem with
          | some e => simp at hset
          | none =>
            have henv : some (groupsText list) = env' := congrArg Prod.snd hset
            rw [← henv]
            exact readsBack_of_tokens (groupTokens_groupsText hne hlen)
        · simp at hset
  · intro hne hroom
    rw [setgroups_stores env hne]
    split
    · exact ⟨_, rfl⟩
    · rename_i hmax
      split
      · rename_i hlt
        cases nomem with
        | some e => exact ⟨e, rfl⟩
        | none => exact absurd ⟨⟨Nat.not_lt.mp hmax, hlt⟩, rfl⟩ hroom
      · exact ⟨_, rfl⟩

/-- Without ids `getgroups` counts one, and of 2049 ids of two bytes each it counts 2048. -/
theorem setgroups_loses :
    setgroups 8192 none [] (some ['5']) = (.ok (), none) ∧ getgroups 0 none none = (.ok 1, none) ∧
      setgroups 8192 none (List.replicate 2049 0) none = (.ok (), some (groupsText (List.replicate 2049 0))) ∧
      getgroups 0 none (some (groupsText (List.replicate 2049 0))) = (.ok 2048, none) := by
  refine ⟨by decide, by decide, ?_, by decide +kernel⟩
  have hne : List.replicate 2049 (0 : Word) ≠ [] := List.replicate_succ ▸ List.cons_ne_nil _ _
  rw [setgroups_stores none hne, if_neg (by rw [List.length_replicate, ngroupsMax]; omega), if_pos (by decide +kernel)]
  rfl

end Iamroot
