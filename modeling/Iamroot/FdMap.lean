import Iamroot.Lib.Run
import Iamroot.EnvInv
import Iamroot.Groups

/-!
# The map of descriptors

OpenBSD and NetBSD do not tell the path of a descriptor, so the library keeps it in
the environment, in a variable `IAMROOT_FD_n` for each descriptor `n`. The calls that
open, copy or close one descriptor keep the map; `closefrom` forgets it, and the loop
that clears it before an exec steps over the entry that moves into the place of one
it has deleted.
-/

namespace Iamroot

/-! ## The environment as text -/

def getText (name : Str) (env : List Str) : Option Str :=
  (env.find? fun s => nameOf s = some name).map (·.drop (name.length + 1))

def putText (name value : Str) : List Str → List Str
  | [] => [name ++ '=' :: value]
  | s :: env => if nameOf s = some name then (name ++ '=' :: value) :: env else s :: putText name value env

def unsetText (name : Str) (env : List Str) : List Str := env.filter fun s => nameOf s ≠ some name

/-! ## The map -/

def fdPrefix : Str := "IAMROOT_FD_".toList

def fdName (fd : Int) : Str := fdPrefix ++ ((if fd < 0 then ['-'] else []) ++ Nat.toDigits 10 fd.natAbs)

def setfd (env : List Str) (fd : Int) : Option Str → List Str
  | none => unsetText (fdName fd) env
  | some path => putText (fdName fd) path env

def fpathOf (env : List Str) (fd : Int) : Option Str := (getText (fdName fd) env).map (strncpy · pathMax)

def scanInt (s : Str) : Option (Int × Str) :=
  let (negative, s) := sign (s.dropWhile isSpace)
  let (b, digits) := numeral s
  if digits.takeWhile (digitValue · < b) = [] then none
  else some (if negative then -magnitude s else magnitude s, digits.dropWhile (digitValue · < b))

/-- `sscanf` of an entry: the descriptor, when two items are read. The size in the format is no number: `%s` has no limit. -/
def scanFd (s : Str) : Option Int :=
  if fdPrefix <+: s then
    match scanInt (s.drop fdPrefix.length) with
    | some (fd, '=' :: path) => if path.dropWhile isSpace = [] then none else some fd
    | _ => none
  else none

/-- The loop of `__execfd`, with `p` at an index; the array moves below it. -/
def execfdLoop : Nat → Nat → List Str → List Str
  | 0, _, env => env
  | fuel + 1, p, env =>
    match env[p]? with
    | none => env
    | some s =>
      match scanFd s with
      | none => execfdLoop fuel (p + 1) env
      | some fd => execfdLoop fuel (p + 1) (setfd env fd none)

def execfd (env : List Str) : List Str := execfdLoop (env.length + 1) 0 env

/-! ## Runs -/

structure FdState where
  environ : List Str
  opened : Nat → Option Str

/-- A call, with what the host returned. A path has been resolved in a buffer of `PATH_MAX` bytes; `open` is `openat` too. -/
inductive FdCall where
  | open (path : {p : Str // p.length < pathMax}) (ret : Option Nat)
  | dup (fd : Nat) (ret : Option Nat)
  | dup2 (oldfd newfd : Nat) (ok : Bool)
  | close (fd : Nat) (ok : Bool)
  | closefrom (fd : Nat) (ok : Bool)
  | exec (ok : Bool)

namespace FdState

def copied (s : FdState) (fd n : Nat) : FdState where
  environ := setfd s.environ n (fpathOf s.environ fd)
  opened := Function.update s.opened n (s.opened fd)

def step (s : FdState) : FdCall → FdState
  | .open path (some n) => { environ := setfd s.environ n (some path), opened := Function.update s.opened n (some path.1) }
  | .open _ none => s
  | .dup fd (some n) => s.copied fd n
  | .dup _ none => s
  | .dup2 oldfd newfd true => s.copied oldfd newfd
  | .dup2 _ _ false => s
  | .close fd true => { environ := setfd s.environ fd none, opened := Function.update s.opened fd none }
  | .close _ false => s
  | .closefrom fd true => { s with opened := fun n => if fd ≤ n then none else s.opened n }
  | .closefrom _ false => s
  | .exec true => { environ := execfd s.environ, opened := fun _ => none }
  | .exec false => { s with environ := execfd s.environ }

/-- The map has exactly the descriptors that are open, with their paths. -/
def MapRight (s : FdState) : Prop := ∀ n : Nat, getText (fdName n) s.environ = s.opened n

end FdState

/-! ## One variable -/

section
variable {env : List Str} {name name' : Str} {n : Nat}

theorem nameOf_bind (h : IsName name) (value : Str) : nameOf (name ++ '=' :: value) = some name :=
  nameOf_eq_some.mpr ⟨h.1, h.2, value, rfl⟩

theorem getText_cons_self (h : IsName name) (value : Str) (env : List Str) :
    getText name ((name ++ '=' :: value) :: env) = some value := by
  rw [getText, List.find?_cons_of_pos (by simp [nameOf_bind h]), Option.map_some, ← List.drop_drop, List.drop_left]
  rfl

theorem getText_cons_of_ne {s : Str} (h : nameOf s ≠ some name) (env : List Str) : getText name (s :: env) = getText name env := by
  rw [getText, List.find?_cons_of_neg (by simpa using h)]
  rfl

theorem getText_putText_self (h : IsName name) (value : Str) : getText name (putText name value env) = some value := by
  induction env with
  | nil => exact getText_cons_self h value []
  | cons s env ih =>
    unfold putText
    split
    · exact getText_cons_self h value env
    · rename_i hs
      rw [getText_cons_of_ne hs]
      exact ih

theorem getText_putText_of_ne (h : IsName name) (hne : name ≠ name') (value : Str) :
    getText name' (putText name value env) = getText name' env := by
  have hother : nameOf (name ++ '=' :: value) ≠ some name' := by
    rw [nameOf_bind h]
    exact fun heq => hne (Option.some.inj heq)
  induction env with
  | nil => exact getText_cons_of_ne hother []
  | cons s env ih =>
    unfold putText
    split
    · rename_i hs
      have hs' : nameOf s ≠ some name' := by
        rw [hs]
        exact fun heq => hne (Option.some.inj heq)
      rw [getText_cons_of_ne hother, getText_cons_of_ne hs']
    · by_cases hs : nameOf s = some name'
      · unfold getText
        rw [List.find?_cons_of_pos (by simp [hs]), List.find?_cons_of_pos (by simp [hs])]
      · rw [getText_cons_of_ne hs, getText_cons_of_ne hs]
        exact ih

theorem getText_unsetText_self (name : Str) (env : List Str) : getText name (unsetText name env) = none := by
  have h : (unsetText name env).find? (fun s => nameOf s = some name) = none := by
    rw [List.find?_eq_none]
    intro s hs
    simpa using (List.mem_filter.mp hs).2
  rw [getText, h]
  rfl

theorem getText_unsetText_of_ne (hne : name ≠ name') : getText name' (unsetText name env) = getText name' env := by
  unfold getText unsetText
  rw [List.find?_filter]
  congr 2
  funext s
  by_cases hs : nameOf s = some name'
  · simp [hs, hne.symm]
  · simp [hs]

end

/-! ## The names of the map -/

section
variable {env : List Str} {n m : Nat} {s : Str}

theorem fdName_nat (n : Nat) : fdName n = fdPrefix ++ Nat.toDigits 10 n := by
  rw [fdName, if_neg (by omega)]
  rfl

theorem fdName_isName (n : Nat) : IsName (fdName n) := by
  rw [fdName_nat]
  constructor
  · intro h
    exact Nat.toDigits_ne_nil (List.append_eq_nil_iff.mp h).2
  · intro h
    rcases List.mem_append.mp h with h | h
    · revert h
      decide
    · have hd := isDigit_of_mem h
      simp at hd

theorem fdName_inj (h : fdName n = fdName m) : n = m := by
  rw [fdName_nat, fdName_nat] at h
  have hd := List.append_cancel_left h
  rw [← Nat.ofDigitChars_ten_toDigits (n := n), hd, Nat.ofDigitChars_ten_toDigits]

theorem getText_setfd (value : Option Str) (env : List Str) :
    getText (fdName m) (setfd env n value) = if m = n then value else getText (fdName m) env := by
  by_cases hmn : m = n
  · subst hmn
    rw [if_pos rfl]
    cases value with
    | none => exact getText_unsetText_self _ env
    | some p => exact getText_putText_self (fdName_isName m) p
  · have hne : fdName n ≠ fdName m := fun h => hmn (fdName_inj h).symm
    rw [if_neg hmn]
    cases value with
    | none => exact getText_unsetText_of_ne hne
    | some p => exact getText_putText_of_ne (fdName_isName n) hne p

end

/-! ## The entries that the loop reads -/

def FdEntry (s : Str) : Prop := ∃ n : Nat, nameOf s = some (fdName n)

def Plain (s : Str) : Prop := scanFd s = none ∧ ¬ FdEntry s

/-- Every variable of the map stands once, with a path that fits a buffer. -/
structure Shaped (env : List Str) : Prop where
  entry : ∀ s ∈ env, Plain s ∨ ∃ (n : Nat) (p : Str), s = fdName n ++ '=' :: p ∧ p.length < pathMax
  once : env.Pairwise fun s t => ∀ n : Nat, nameOf s = some (fdName n) → nameOf t ≠ some (fdName n)

section
variable {env env' done : List Str} {n m : Nat} {s t : Str} {p : Str}

theorem nameOf_fd (n : Nat) (p : Str) : nameOf (fdName n ++ '=' :: p) = some (fdName n) := nameOf_bind (fdName_isName n) p

theorem scanInt_toDigits (n : Nat) (rest : Str) : scanInt (Nat.toDigits 10 n ++ '=' :: rest) = some ((n : Int), '=' :: rest) := by
  have hall : ∀ c ∈ Nat.toDigits 10 n, c.isDigit = true := fun c hc => isDigit_of_mem hc
  obtain ⟨c, ds, hds⟩ := List.exists_cons_of_ne_nil (Nat.toDigits_ne_nil (n := n) (b := 10))
  have hc : c.isDigit = true := hall c (by simp [hds])
  have hspace : (Nat.toDigits 10 n ++ '=' :: rest).dropWhile isSpace = Nat.toDigits 10 n ++ '=' :: rest := by
    rw [hds, List.cons_append, List.dropWhile_cons_of_neg (by simp [isSpace_isDigit hc])]
  have hsign : sign (Nat.toDigits 10 n ++ '=' :: rest) = (false, Nat.toDigits 10 n ++ '=' :: rest) := by
    rw [hds, List.cons_append, sign_isDigit hc]
  unfold scanInt
  rw [hspace, hsign]
  by_cases hn : n = 0
  · subst hn
    rw [Nat.toDigits_zero]
    cases rest <;> rfl
  · have hnum := numeral_ten (s := Nat.toDigits 10 n ++ '=' :: rest) (by
      rw [List.head?_append_of_ne_nil _ Nat.toDigits_ne_nil]
      exact head_toDigits (Nat.pos_of_ne_zero hn))
    have hlt : ∀ c ∈ Nat.toDigits 10 n, decide (digitValue c < 10) = true := fun c hc =>
      decide_eq_true (digitValue_lt_ten (hall c hc))
    have hstop : decide (digitValue '=' < 10) = false := by decide
    have htake : (Nat.toDigits 10 n ++ '=' :: rest).takeWhile (digitValue · < 10) = Nat.toDigits 10 n := by
      rw [List.takeWhile_append_of_pos hlt, List.takeWhile_cons, hstop]
      exact List.append_nil _
    have hdrop : (Nat.toDigits 10 n ++ '=' :: rest).dropWhile (digitValue · < 10) = '=' :: rest := by
      rw [List.dropWhile_append_of_pos hlt, List.dropWhile_cons, hstop]
      rfl
    have hmag : magnitude (Nat.toDigits 10 n ++ '=' :: rest) = n := by
      unfold magnitude
      rw [hnum]
      simp only [htake]
      rw [foldl_digits 0 hall, Nat.ofDigitChars_ten_toDigits]
    simp only [hnum, htake, hdrop, hmag]
    rw [if_neg Nat.toDigits_ne_nil]
    rfl

theorem fdPrefix_of_nameOf (h : nameOf s = some (fdName n)) : fdPrefix <+: s := by
  obtain ⟨-, -, v, rfl⟩ := nameOf_eq_some.mp h
  rw [fdName_nat, List.append_assoc]
  exact List.prefix_append _ _

/-- An entry of the map is read unless its path is blank. -/
theorem scanFd_fd (n : Nat) (p : Str) :
    scanFd (fdName n ++ '=' :: p) = if p.dropWhile isSpace = [] then none else some (n : Int) := by
  unfold scanFd
  rw [if_pos (fdPrefix_of_nameOf (nameOf_fd n p)), fdName_nat, List.append_assoc, List.drop_left, scanInt_toDigits]
  rfl

theorem Shaped.scan (h : Shaped env) (hs : s ∈ env) {fd : Int} (hfd : scanFd s = some fd) :
    ∃ (n : Nat) (p : Str), fd = n ∧ s = fdName n ++ '=' :: p := by
  rcases h.entry s hs with hp | ⟨n, p, rfl, -⟩
  · rw [hp.1] at hfd
    cases hfd
  · rw [scanFd_fd] at hfd
    split at hfd
    · cases hfd
    · exact ⟨n, p, (Option.some.inj hfd).symm, rfl⟩

theorem Shaped.short (h : Shaped env) {p : Str} (hp : getText (fdName n) env = some p) : p.length < pathMax := by
  obtain ⟨s, hs, rfl⟩ := Option.map_eq_some_iff.mp hp
  have hname : nameOf s = some (fdName n) := by simpa using List.find?_some hs
  rcases h.entry s (List.mem_of_find?_eq_some hs) with hplain | ⟨m, q, rfl, hq⟩
  · exact absurd ⟨n, hname⟩ hplain.2
  · rw [nameOf_fd] at hname
    rw [← Option.some.inj hname, ← List.drop_drop, List.drop_left]
    exact hq

theorem Shaped.sublist (h : Shaped env) (hs : env'.Sublist env) : Shaped env' where
  entry s hm := h.entry s (hs.subset hm)
  once := h.once.sublist hs

theorem mem_putText {name value : Str} (h : s ∈ putText name value env) : s = name ++ '=' :: value ∨ s ∈ env := by
  induction env with
  | nil => exact Or.inl (List.mem_singleton.mp h)
  | cons t env ih =>
    unfold putText at h
    split at h
    · rcases List.mem_cons.mp h with h | h
      · exact Or.inl h
      · exact Or.inr (List.mem_cons_of_mem t h)
    · rcases List.mem_cons.mp h with h | h
      · exact Or.inr (by simp [h])
      · exact (ih h).imp_right (List.mem_cons_of_mem t)

theorem Shaped.putText (h : Shaped env) (n : Nat) (hp : p.length < pathMax) : Shaped (putText (fdName n) p env) := by
  constructor
  · intro s hs
    rcases mem_putText hs with rfl | hs
    · exact Or.inr ⟨n, p, rfl, hp⟩
    · exact h.entry s hs
  · induction env with
    | nil => exact List.pairwise_singleton _ _
    | cons s env ih =>
      obtain ⟨hhead, htail⟩ := List.pairwise_cons.mp h.once
      unfold Iamroot.putText
      split
      · rename_i hs
        refine List.pairwise_cons.mpr ⟨fun t ht m hm => ?_, htail⟩
        rw [nameOf_fd] at hm
        rw [← hm, ← hs]
        exact fun heq => hhead t ht n hs (heq.trans hs)
      · rename_i hs
        refine List.pairwise_cons.mpr ⟨fun t ht m hm => ?_, ih (h.sublist (List.sublist_cons_self s env))⟩
        rcases mem_putText ht with rfl | ht
        · rw [nameOf_fd, ← hm]
          exact fun heq => hs heq.symm
        · exact hhead t ht m hm

theorem Shaped.setfd (h : Shaped env) (n : Nat) {value : Option Str} (hv : ∀ p, value = some p → p.length < pathMax) :
    Shaped (setfd env n value) := by
  cases value with
  | none => exact h.sublist List.filter_sublist
  | some p => exact h.putText n (hv p rfl)

/-! ## The loop -/

def skipFds : List Str → List Str
  | [] => []
  | [s] => if scanFd s = none then [s] else []
  | s :: t :: env => if scanFd s = none then s :: skipFds (t :: env) else t :: skipFds env

/-- Every entry of the map is read, and none stands right behind another. -/
def Spread (env : List Str) : Prop :=
  (∀ s ∈ env, FdEntry s → scanFd s ≠ none) ∧ env.IsChain fun s t => ¬ (FdEntry s ∧ FdEntry t)

theorem Shaped.unset (h : Shaped (done ++ (fdName n ++ '=' :: p) :: env)) :
    Iamroot.setfd (done ++ (fdName n ++ '=' :: p) :: env) n none = done ++ env := by
  obtain ⟨-, htail, hcross⟩ := List.pairwise_append.mp h.once
  have hbefore : ∀ s ∈ done, decide (nameOf s ≠ some (fdName n)) = true := fun s hs => by
    refine decide_eq_true fun hname => ?_
    exact hcross s hs _ List.mem_cons_self n hname (nameOf_fd n p)
  have hafter : ∀ s ∈ env, decide (nameOf s ≠ some (fdName n)) = true := fun s hs =>
    decide_eq_true ((List.pairwise_cons.mp htail).1 s hs n (nameOf_fd n p))
  show (done ++ (fdName n ++ '=' :: p) :: env).filter _ = _
  rw [List.filter_append, List.filter_cons_of_neg (by simp [nameOf_fd]), List.filter_eq_self.mpr hbefore,
    List.filter_eq_self.mpr hafter]

theorem execfdLoop_keeps (fuel : Nat) (h : scanFd s = none) :
    execfdLoop (fuel + 1) done.length (done ++ s :: env) = execfdLoop fuel (done ++ [s]).length ((done ++ [s]) ++ env) := by
  rw [execfdLoop, List.getElem?_append_right (Nat.le_refl _), Nat.sub_self, List.getElem?_cons_zero, List.append_assoc,
    List.length_append]
  simp only [h]
  rfl

theorem execfdLoop_unsets (fuel : Nat) (hs : Shaped (done ++ s :: env)) (h : scanFd s ≠ none) :
    execfdLoop (fuel + 1) done.length (done ++ s :: env) = execfdLoop fuel (done.length + 1) (done ++ env) := by
  obtain ⟨fd, hfd⟩ := Option.ne_none_iff_exists'.mp h
  obtain ⟨n, p, rfl, rfl⟩ := hs.scan (List.mem_append_right done List.mem_cons_self) hfd
  rw [execfdLoop, List.getElem?_append_right (Nat.le_refl _), Nat.sub_self, List.getElem?_cons_zero]
  simp only [hfd, hs.unset]

theorem execfdLoop_end (fuel : Nat) {i : Nat} (h : env.length ≤ i) : execfdLoop fuel i env = env := by
  cases fuel with
  | zero => rfl
  | succ fuel =>
    rw [execfdLoop, List.getElem?_eq_none h]

/-- With the entries before the pointer done, the loop does what `skipFds` does to the others. -/
theorem execfdLoop_eq (env done : List Str) (fuel : Nat) (hs : Shaped (done ++ env)) (hf : env.length ≤ fuel) :
    execfdLoop fuel done.length (done ++ env) = done ++ skipFds env := by
  fun_induction skipFds env generalizing done fuel with
  | case1 =>
    rw [List.append_nil]
    exact execfdLoop_end fuel (Nat.le_refl _)
  | case2 s h =>
    obtain ⟨fuel, rfl⟩ := Nat.exists_eq_add_of_le' hf
    rw [List.length_singleton, execfdLoop_keeps fuel h, List.append_nil]
    exact execfdLoop_end fuel (Nat.le_refl _)
  | case3 s h =>
    obtain ⟨fuel, rfl⟩ := Nat.exists_eq_add_of_le' hf
    rw [List.length_singleton, execfdLoop_unsets fuel hs h, List.append_nil]
    exact execfdLoop_end fuel (Nat.le_succ _)
  | case4 s t env h ih =>
    obtain ⟨fuel, rfl⟩ := Nat.exists_eq_add_of_le' (Nat.le_trans (Nat.succ_le_succ (Nat.zero_le _)) hf)
    rw [execfdLoop_keeps fuel h, ih (done ++ [s]) fuel (by simpa using hs) (by simp at hf ⊢; omega)]
    simp
  | case5 s t env h ih =>
    obtain ⟨fuel, rfl⟩ := Nat.exists_eq_add_of_le' (Nat.le_trans (Nat.succ_le_succ (Nat.zero_le _)) hf)
    have hrest : Shaped ((done ++ [t]) ++ env) := hs.sublist (by simp)
    rw [execfdLoop_unsets fuel hs h]
    have ih := ih (done ++ [t]) fuel hrest (by simp at hf; omega)
    rw [List.length_append, List.append_assoc, List.append_assoc] at ih
    exact ih

theorem execfd_eq (hs : Shaped env) : execfd env = skipFds env := execfdLoop_eq env [] _ hs (Nat.le_succ _)

theorem skipFds_sublist (env : List Str) : (skipFds env).Sublist env := by
  fun_induction skipFds env with
  | case1 => exact List.nil_sublist _
  | case2 s h => exact List.Sublist.refl _
  | case3 s h => exact List.nil_sublist _
  | case4 s t env h ih => exact ih.cons_cons s
  | case5 s t env h ih => exact (ih.cons_cons t).cons s

theorem Shaped.fd_of_scan (hs : Shaped env) (hm : s ∈ env) (h : scanFd s ≠ none) : FdEntry s := by
  obtain ⟨fd, hfd⟩ := Option.ne_none_iff_exists'.mp h
  obtain ⟨n, p, rfl, rfl⟩ := hs.scan hm hfd
  exact ⟨n, nameOf_fd n p⟩

theorem spread_cons : Spread (s :: env) ↔
    (FdEntry s → scanFd s ≠ none) ∧ (∀ t, env.head? = some t → ¬ (FdEntry s ∧ FdEntry t)) ∧ Spread env := by
  unfold Spread
  cases env with
  | nil => simp
  | cons t env =>
    rw [List.forall_mem_cons, List.isChain_cons_cons]
    simp only [List.head?_cons, Option.some.injEq, forall_eq']
    tauto

/-- The loop clears the map exactly when the entries stand apart and are read. -/
theorem skipFds_clears (hs : Shaped env) : (∀ s ∈ skipFds env, ¬ FdEntry s) ↔ Spread env := by
  fun_induction skipFds env with
  | case1 => simp [Spread]
  | case2 s h => simp [Spread, h]
  | case3 s h => simp [Spread, h]
  | case4 s t env h ih =>
    rw [List.forall_mem_cons, ih (hs.sublist (List.sublist_cons_self _ _)), spread_cons (s := s)]
    constructor
    · rintro ⟨hfd, htail⟩
      exact ⟨fun h' => absurd h' hfd, fun u _ hu => hfd hu.1, htail⟩
    · rintro ⟨hread, -, htail⟩
      exact ⟨fun hfd => hread hfd h, htail⟩
  | case5 s t env h ih =>
    have hfd : FdEntry s := hs.fd_of_scan List.mem_cons_self h
    rw [List.forall_mem_cons, ih (hs.sublist (by simp)), spread_cons, spread_cons]
    constructor
    · rintro ⟨ht, htail⟩
      refine ⟨fun _ => h, fun u hu => ?_, fun h' => absurd h' ht, fun u _ hu => ht hu.1, htail⟩
      rw [← Option.some.inj hu]
      exact fun hboth => ht hboth.2
    · rintro ⟨-, hnext, -, -, htail⟩
      exact ⟨fun ht => hnext t rfl ⟨hfd, ht⟩, htail⟩

end

/-! ## Runs that keep the map -/

namespace FdState

/-- The calls that neither strand an entry nor clear the map of descriptors that stay open. -/
def Keeps (s : FdState) : FdCall → Prop
  | .closefrom fd true => ∀ n, fd ≤ n → s.opened n = none
  | .exec true => Spread s.environ
  | .exec false => Spread s.environ ∧ ∀ n, s.opened n = none
  | _ => True

structure Ok (s : FdState) : Prop where
  right : s.MapRight
  shaped : Shaped s.environ

section
variable {s : FdState}

theorem Ok.fpath (h : s.Ok) (fd : Nat) : fpathOf s.environ fd = s.opened fd := by
  rw [← h.right fd, fpathOf]
  cases hp : getText (fdName fd) s.environ with
  | none => rfl
  | some p => exact congrArg some (List.take_of_length_le (Nat.le_sub_one_of_lt (h.shaped.short hp)))

theorem Ok.setfd (h : s.Ok) (n : Nat) {value : Option Str} (hv : ∀ p, value = some p → p.length < pathMax) :
    Ok { environ := setfd s.environ n value, opened := Function.update s.opened n value } where
  right m := by
    show getText (fdName m) (Iamroot.setfd s.environ n value) = Function.update s.opened n value m
    rw [getText_setfd, Function.update_apply, h.right m]
  shaped := h.shaped.setfd n hv

theorem Ok.copied (h : s.Ok) (fd n : Nat) : (s.copied fd n).Ok := by
  unfold FdState.copied
  rw [h.fpath fd]
  refine h.setfd n fun p hp => ?_
  rw [← h.right fd] at hp
  exact h.shaped.short hp

theorem getText_eq_none {env : List Str} (h : ∀ t ∈ env, ¬ FdEntry t) (n : Nat) : getText (fdName n) env = none := by
  rw [getText, List.find?_eq_none.mpr fun t ht => by simpa using fun hname => h t ht ⟨n, hname⟩]
  rfl

theorem Ok.cleared (h : s.Ok) (hsp : Spread s.environ) : ∀ t ∈ execfd s.environ, ¬ FdEntry t := by
  rw [execfd_eq h.shaped]
  exact (skipFds_clears h.shaped).mpr hsp

theorem Ok.exec (h : s.Ok) (hsp : Spread s.environ) : Ok { environ := execfd s.environ, opened := fun _ => none } where
  right := getText_eq_none (h.cleared hsp)
  shaped := by
    show Shaped (execfd s.environ)
    rw [execfd_eq h.shaped]
    exact h.shaped.sublist (skipFds_sublist _)

theorem start_ok {env : List Str} (h : ∀ t ∈ env, Plain t) : Ok ⟨env, fun _ => none⟩ where
  right := getText_eq_none fun t ht => (h t ht).2
  shaped.entry t ht := Or.inl (h t ht)
  shaped.once := by
    refine List.pairwise_iff_forall_sublist.mpr fun hsub n hname => ?_
    exact absurd ⟨n, hname⟩ (h _ (hsub.subset List.mem_cons_self)).2

theorem step_ok {c : FdCall} (h : s.Ok) (hc : s.Keeps c) : (s.step c).Ok := by
  cases c with
  | «open» path ret =>
    cases ret with
    | none => exact h
    | some n => exact h.setfd n fun p hp => Option.some.inj hp ▸ path.2
  | dup fd ret =>
    cases ret with
    | none => exact h
    | some n => exact h.copied fd n
  | dup2 oldfd newfd ok =>
    cases ok with
    | false => exact h
    | true => exact h.copied oldfd newfd
  | close fd ok =>
    cases ok with
    | false => exact h
    | true =>
      have hnone : ∀ p : Str, none = some p → p.length < pathMax := by simp
      exact h.setfd fd hnone
  | closefrom fd ok =>
    cases ok with
    | false => exact h
    | true =>
      have hnone : (fun n => if fd ≤ n then none else s.opened n) = s.opened := by
        funext n
        split
        · rename_i hle
          exact (hc n hle).symm
        · rfl
      show Ok { s with opened := _ }
      rw [hnone]
      exact h
  | exec ok =>
    cases ok with
    | true => exact h.exec hc
    | false =>
      have hnone : s.opened = fun _ => none := funext hc.2
      show Ok { s with environ := execfd s.environ }
      rw [hnone]
      exact h.exec hc.1

end

end FdState

/-- **The map of descriptors**: from an environment without the map, every run whose calls
keep it has after each call the variables of the descriptors that are open, with the paths
they were opened by, and after each exec none at all. -/
theorem fd_map_kept (env : List Str) (henv : ∀ s ∈ env, Plain s) (l : List FdCall)
    (h : Run.Meets FdState.step FdState.Keeps ⟨env, fun _ => none⟩ l) :
    (Run.exec FdState.step ⟨env, fun _ => none⟩ l).MapRight ∧
      ∀ ok, l.getLast? = some (.exec ok) → ∀ s ∈ (Run.exec FdState.step ⟨env, fun _ => none⟩ l).environ, ¬ FdEntry s := by
  have hstart : FdState.Ok ⟨env, fun _ => none⟩ := FdState.start_ok henv
  have hkeep : ∀ (s : FdState) (c : FdCall), s.Ok → s.Keeps c → (s.step c).Ok := fun s c => FdState.step_ok
  refine ⟨(h.inv hkeep l _ hstart).right, fun ok hlast => ?_⟩
  obtain ⟨l, rfl⟩ := List.getLast?_eq_some_iff.mp hlast
  have hbefore : (Run.exec FdState.step ⟨env, fun _ => none⟩ l).Ok := h.of_append.inv hkeep l _ hstart
  have hkeeps := h.last
  rw [Run.exec_append]
  cases ok with
  | true => exact hbefore.cleared hkeeps
  | false => exact hbefore.cleared hkeeps.1

theorem plain_of_fdPrefix {s : Str} (h : ¬ fdPrefix <+: s) : Plain s := by
  refine ⟨if_neg h, fun hfd => ?_⟩
  obtain ⟨n, hn⟩ := hfd
  exact h (fdPrefix_of_nameOf hn)

/-- A descriptor is copied and closed, and there is an exec. -/
theorem fd_map_kept_dup :
    let s := Run.exec FdState.step ⟨["HOME=/".toList], fun _ => none⟩
      [.open ⟨"/a".toList, by decide⟩ (some 3), .dup 3 (some 4), .close 3 true, .exec true]
    s.MapRight ∧ ∀ t ∈ s.environ, ¬ FdEntry t := by
  have hhome : Plain "HOME=/".toList := plain_of_fdPrefix (by decide)
  have hspread : Spread ["HOME=/".toList, "IAMROOT_FD_4=/a".toList] := by
    refine ⟨fun s hs hfd => ?_, List.IsChain.cons_cons (fun h => hhome.2 h.1) (List.IsChain.singleton _)⟩
    rcases List.mem_pair.mp hs with rfl | rfl
    · exact absurd hfd hhome.2
    · decide
  have henv : (Run.exec FdState.step ⟨["HOME=/".toList], fun _ => none⟩
      [.open ⟨"/a".toList, by decide⟩ (some 3), .dup 3 (some 4), .close 3 true]).environ =
        ["HOME=/".toList, "IAMROOT_FD_4=/a".toList] := by
    decide
  have h := fd_map_kept ["HOME=/".toList] (fun s hs => List.mem_singleton.mp hs ▸ hhome)
    [.open ⟨"/a".toList, by decide⟩ (some 3), .dup 3 (some 4), .close 3 true, .exec true]
    ⟨trivial, trivial, trivial, henv ▸ hspread, trivial⟩
  exact ⟨h.1, h.2 true rfl⟩

/-- The entry that moves into the place of a deleted one stays, and behind `closefrom` every entry does. -/
theorem execfd_leaves :
    getText (fdName 4) (Run.exec FdState.step ⟨[], fun _ => none⟩
      [.open ⟨"/a".toList, by decide⟩ (some 3), .open ⟨"/b".toList, by decide⟩ (some 4), .exec true]).environ =
        some "/b".toList ∧
    getText (fdName 3) (Run.exec FdState.step ⟨[], fun _ => none⟩
      [.open ⟨"/a".toList, by decide⟩ (some 3), .closefrom 3 true]).environ = some "/a".toList := by
  decide

/-! ## The calls on the array of pointers -/

def Env.texts (e : Env) : List Str := e.entries.map e.mem

theorem texts_unset (mem : Ptr → Str) (name : Str) (l : List Ptr) : (unset mem name l).map mem = unsetText name (l.map mem) := by
  unfold unset unsetText
  rw [List.filter_map]
  congr 1
  refine List.filter_congr fun q _ => ?_
  by_cases h : nameOf (mem q) = some name
  · simp [Names, h]
  · simp [Names, h]

theorem texts_put {mem : Ptr → Str} {name value : Str} {p : Ptr} (l : List Ptr) (hp : mem p = name ++ '=' :: value) :
    (put mem name p l).map mem = putText name value (l.map mem) := by
  induction l with
  | nil => simp [put, putText, hp]
  | cons q l ih =>
    unfold put
    by_cases h : nameOf (mem q) = some name
    · rw [if_pos (show Names mem name q = true from beq_iff_eq.mpr h), List.map_cons, List.map_cons, putText, if_pos h, hp]
    · rw [if_neg (show ¬ Names mem name q = true from fun hh => h (beq_iff_eq.mp hh)), List.map_cons, List.map_cons, putText, if_neg h, ih]

def Env.setfd (e : Env) (fd : Int) : Option Str → Option (Env × Int)
  | none => unsetenv e (fdName fd)
  | some path => setenv e (fdName fd) path true

/-- What the calls do to the array of pointers is what `setfd` does to the texts. -/
theorem Env.setfd_texts {e : Env} (h : e.Ok) (n : Nat) (value : Option Str) :
    ∃ e' ret, e.setfd n value = some (e', ret) ∧ e'.Ok ∧ e'.texts = Iamroot.setfd e.texts n value := by
  cases value with
  | none =>
    obtain ⟨e', ret, hret, hok, hmem, -, hent⟩ := unsetenv_eq h (fdName n)
    refine ⟨e', ret, hret, hok, ?_⟩
    unfold Env.texts
    rw [hent, hmem, if_pos (fdName_isName n), texts_unset]
    rfl
  | some p =>
    have hn := fdName_isName n
    obtain ⟨e', ret, hret, hok, hmem, hent⟩ := setenvNew_eq h hn p
    refine ⟨e', ret, ?_, hok, ?_⟩
    · show setenv e (fdName n) p true = _
      unfold setenv
      simp only [if_neg (isName_iff.mp hn), if_true, hret]
    · have hold : e.entries.map e'.mem = e.entries.map e.mem := by
        refine List.map_congr_left fun q hq => ?_
        rw [hmem, Function.update_of_ne]
        rintro rfl
        exact h.next_not_live (h.entries_live _ hq)
      unfold Env.texts
      rw [hent, texts_put e.entries (by rw [hmem, Function.update_self]), hold]
      rfl

end Iamroot
