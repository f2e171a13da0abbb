import Iamroot.Path

/-!
# Taking the root directory off a host path

The same operation is written five times: `__skiprootdir`, `__striprootdir`,
`__getexe`, and the last lines of `realpath` and of `readlinkat`. Each is kept
as its own function. They agree with one another, and with the component-wise
reading, exactly on the paths that go on below the root with a slash.
-/

namespace Iamroot

def getrootdir (env : Option Str) : Str := env.getD ['/']

def inchroot (env : Option Str) : Bool := !streq (getrootdir env) ['/']

/-- `__skiprootdir`. `none` is a null pointer. -/
def skiprootdir (env : Option Str) (path : Str) : Option Str :=
  if path = [] then none
  else
    let root := getrootdir env
    if streq root ['/'] then some path
    else
      let len := strlen root
      let ret := if strneq root path len then path.drop len else path
      some (if ret = [] then ['/'] else ret)

def striprootdir (env : Option Str) (path : Str) : Option Str :=
  if path = [] then none
  else
    let root := getrootdir env
    if streq root ['/'] then some path
    else
      let size := strlen path
      let len := strlen root
      let ret :=
        if strneq root path len then cstr (memmoveDown (path ++ [nul]) len (size - len + 1)) else path
      some (if ret = [] then strncpy ['/'] size else ret)

/-- `__getexe`, from the value of `IAMROOT_ROOT` and the result of `__execfn`. -/
def getexe (env exec : Option Str) : Option Str :=
  match exec with
  | none => none
  | some exec =>
    let len := match env with
      | some root => strlen root
      | none => 0
    if strlen exec < len then none else some (exec.drop len)

/-- The end of `realpath`, once `next_realpath` has returned `ret`; `given` tells
whether the caller passed a buffer. -/
def realpathStrip (env : Option Str) (given : Bool) (ret : Str) : Str :=
  let root := getrootdir env
  let len := strlen root
  if streq root ['/'] then ret
  else if !strleq ret (getrootdir env) then ret
  else if !given then ret.drop len
  else cstr (memmoveDown (ret ++ [nul]) len (strlen ret - len + 1))

/-- The end of `readlinkat`, once `next_readlinkat` has filled `tmp2`. -/
def readlinkatStrip (env : Option Str) (tmp2 : Str) : Str :=
  let ret := tmp2.length
  let root := getrootdir env
  let len := strlen root
  if strneq root ['/'] ret then tmp2
  else if !strleq tmp2 (getrootdir env) then tmp2
  else
    let tmp2 := memmoveDown (tmp2 ++ [nul]) len (strlen tmp2 - len + 1)
    let ret := ret - len
    if ret = 0 then ['/'] else tmp2.take ret

structure HostPath where
  path : Str
  head : path.head? = some '/'
  noNul : nul ∉ path
  short : path.length < pathMax

/-- The root taken off component by component. -/
def stripped (R h : Str) : Str :=
  if h = R then ['/'] else if R ++ ['/'] <+: h then h.drop R.length else h

/-- All five functions turn `h` into `stripped R h`. -/
def StrippingsAgree (R h : Str) : Prop :=
  skiprootdir (some R) h = some (stripped R h) ∧
  striprootdir (some R) h = some (stripped R h) ∧
  realpathStrip (some R) false h = stripped R h ∧
  realpathStrip (some R) true h = stripped R h ∧
  readlinkatStrip (some R) h = stripped R h ∧
  getexe (some R) (some h) = some (stripped R h)

instance (R h : Str) : Decidable (StrippingsAgree R h) := by unfold StrippingsAgree; infer_instance

section
variable (R : RootDir) (h : HostPath)

theorem HostPath.ne_nil : h.path ≠ [] := fun e => by simpa [e] using h.head

theorem skiprootdir_eq : skiprootdir (some R.path) h.path =
    some (if R.path <+: h.path then (if h.path.drop R.path.length = [] then ['/'] else h.path.drop R.path.length)
      else h.path) := by
  simp only [skiprootdir, getrootdir, Option.getD_some, h.ne_nil, if_false, streq_false R.path_ne_slash,
    R.strlen_path, strneq_length_iff, Bool.false_eq_true]
  by_cases hp : R.path <+: h.path <;> simp [hp, h.ne_nil]

theorem striprootdir_eq : striprootdir (some R.path) h.path = skiprootdir (some R.path) h.path := by
  rw [skiprootdir_eq]
  simp only [striprootdir, getrootdir, Option.getD_some, h.ne_nil, if_false, streq_false R.path_ne_slash,
    R.strlen_path, strlen_of_lt h.short, strneq_length_iff, Bool.false_eq_true]
  by_cases hp : R.path <+: h.path
  · have h2 : 2 ≤ h.path.length := le_trans R.path_length_ge hp.length_le
    have hs : strncpy ['/'] h.path.length = ['/'] := by
      unfold strncpy; rw [List.take_of_length_le]; simp; omega
    simp only [hp, if_true, memmoveDown_nul h.noNul hp.length_le, hs]
  · simp [hp, h.ne_nil]

theorem realpathStrip_eq (given : Bool) : realpathStrip (some R.path) given h.path =
    if R.path <+: h.path then h.path.drop R.path.length else h.path := by
  simp only [realpathStrip, getrootdir, Option.getD_some, streq_false R.path_ne_slash, R.strlen_path,
    strlen_of_lt h.short, Bool.not_eq_true', Bool.false_eq_true, if_false]
  by_cases hp : R.path <+: h.path
  · have hs := (strleq_iff R.path_short).mpr hp
    cases given
    · simp [hs, hp]
    · simp [hs, hp, memmoveDown_nul h.noNul hp.length_le]
  · have hs : strleq h.path R.path = false := by
      rw [← Bool.not_eq_true]; exact fun e => hp ((strleq_iff R.path_short).mp e)
    simp [hs, hp]

theorem getexe_eq (hl : R.path.length ≤ h.path.length) :
    getexe (some R.path) (some h.path) = some (h.path.drop R.path.length) := by
  simp [getexe, R.strlen_path, strlen_of_lt h.short, Nat.not_lt.mpr hl]

theorem getexe_ne : getexe (some R.path) (some h.path) ≠ some h.path := by
  have hR := R.path_pos
  have hh := List.length_pos_of_ne_nil h.ne_nil
  simp only [getexe, R.strlen_path, strlen_of_lt h.short]
  split
  · exact nofun
  · intro e
    have := congrArg List.length (Option.some.inj e)
    rw [List.length_drop] at this; omega

theorem readlinkatStrip_eq (hp : R.path <+: h.path) : readlinkatStrip (some R.path) h.path =
    if h.path.drop R.path.length = [] then ['/'] else h.path.drop R.path.length := by
  have h2 := R.path_length_ge
  have hl := hp.length_le
  have hne : strneq R.path ['/'] h.path.length = false := by
    rw [← Bool.not_eq_true, strneq, beq_iff_eq]
    intro e
    have := congrArg List.length e
    simp at this; omega
  have hd : ((h.path ++ [nul]).drop R.path.length).take (h.path.length - R.path.length) =
      h.path.drop R.path.length := by
    rw [List.drop_append_of_le_length hl, List.take_append_of_le_length (by simp)]
    exact List.take_of_length_le (by simp)
  simp only [readlinkatStrip, getrootdir, Option.getD_some, hne, (strleq_iff R.path_short).mpr hp, R.strlen_path,
    strlen_of_lt h.short, Bool.not_true, Bool.false_eq_true, if_false, memmoveDown]
  have hm : h.path.length - R.path.length = 0 ↔ h.path.drop R.path.length = [] := by
    rw [List.drop_eq_nil_iff]; omega
  by_cases hz : h.path.length - R.path.length = 0
  · simp [hz, hm.mp hz]
  · have hz' : h.path.drop R.path.length ≠ [] := fun e => hz (hm.mpr e)
    simp only [hz, hz', if_false]
    rw [List.take_append_of_le_length (by simp; omega), List.take_take, Nat.min_eq_left (by omega), hd]

/-- **The five strippings.** They all do the component-wise one exactly when the
root is followed by a slash. -/
theorem strippings_agree_iff : StrippingsAgree R.path h.path ↔ R.path ++ ['/'] <+: h.path := by
  constructor
  · rintro ⟨hskip, -, hreal, -, -, hexe⟩
    by_contra hb
    have hst : stripped R.path h.path = if h.path = R.path then ['/'] else h.path := by
      simp [stripped, hb]
    by_cases he : h.path = R.path
    · -- `realpath` leaves the empty string for the root itself
      rw [realpathStrip_eq, hst, he] at hreal
      simp at hreal
    · rw [hst, if_neg he] at hexe
      exact getexe_ne R h hexe
  · rintro ⟨t, ht⟩
    have hp : R.path <+: h.path := ⟨'/' :: t, by rw [← ht]; simp⟩
    have hd : h.path.drop R.path.length = '/' :: t := by rw [← ht]; simp
    have hne : h.path ≠ R.path := fun e => by
      have := congrArg List.length (ht.trans e)
      simp at this
    have hst : stripped R.path h.path = '/' :: t := by
      rw [stripped, if_neg hne, if_pos ⟨t, ht⟩, hd]
    refine ⟨?_, ?_, ?_, ?_, ?_, ?_⟩
    · rw [skiprootdir_eq, hst, if_pos hp, hd]; rfl
    · rw [striprootdir_eq, skiprootdir_eq, hst, if_pos hp, hd]; rfl
    · rw [realpathStrip_eq, hst, if_pos hp, hd]
    · rw [realpathStrip_eq, hst, if_pos hp, hd]
    · rw [readlinkatStrip_eq R h hp, hst, hd]; rfl
    · rw [getexe_eq R h hp.length_le, hst, hd]

end

/-- Root `/r` and host path `/rx`: a longer name that begins like the root is cut to `x`. -/
theorem strippings_differ : ¬ StrippingsAgree ['/', 'r'] ['/', 'r', 'x'] := by decide

end Iamroot
