import Iamroot.Preload

/-!
# The library in its own list

`__preload_so` puts the library before the other objects of `LD_PRELOAD`, unless an
object of the plain name is on the list. Whether the list has the name of the
library itself is asked too, and the answer is left aside, so that a library with
another name is put before the list again and again.
-/

namespace Iamroot

def libiamroot : Str := "libiamroot.so".toList

/-- The callback of `__is_in_preload`, over the tokens of the list. -/
def isInPreload (path preload : Str) : Bool := (pathTokens preload).any fun t => strneq (basename t) (basename path) pathMax

def isPreloadingSo (ld : Option Str) (so : Str) : Bool := ld.any (isInPreload so)

/-- `__setld_preload(preload, 1)`: the variable, and what is returned. -/
def setldPreload (ld : Option Str) (preload : Str) : Option Str × Int :=
  if preload = [] then (ld, -1)
  else
    match ld with
    | none => (some preload, 0)
    | some curr =>
      match snprintf (preload ++ ':' :: curr) pathMax with
      | .error _ => (ld, -1)
      | .ok buf => (some buf, 0)

/-- `__preload_so`. A list that is not null never gives -1, and nothing else is done with the second answer. -/
def preloadSo (so : Str) (ld : Option Str) : Option Str × Int :=
  if isPreloadingSo ld libiamroot then (ld, 1)
  else
    let _err := isPreloadingSo ld so
    setldPreload ld so

def preloaded (so : Str) (ld : Option Str) : Option Str := (preloadSo so ld).1

/-! ## The names on a list -/

def names (b l : Str) : Nat := ((elements l).map basename).count b

section
variable {s t so b curr : Str} {ld : Option Str}

theorem elements_colon (s t : Str) : elements (s ++ ':' :: t) = elements s ++ elements t := by
  rw [elements, dirs_append, List.filter_append]
  rfl

theorem names_colon (b s t : Str) : names b (s ++ ':' :: t) = names b s + names b t := by
  rw [names, elements_colon, List.map_append, List.count_append]
  rfl

theorem isInPreload_colon {path : Str} (h : (s ++ ':' :: t).length < pathMax) :
    isInPreload path (s ++ ':' :: t) = (isInPreload path s || isInPreload path t) := by
  have hlen : (s ++ ':' :: t).length = s.length + (t.length + 1) := by simp
  unfold isInPreload pathTokens
  rw [List.take_of_length_le (by omega), List.take_of_length_le (by omega), List.take_of_length_le (by omega), elements_colon,
    List.any_append]

/-! ## Calls one after the other -/

def prepended (so : Str) (ld : Option Str) : Str := ld.elim so fun curr => so ++ ':' :: curr

theorem preloadSo_found (h : isPreloadingSo ld libiamroot = true) : preloadSo so ld = (ld, 1) := if_pos h

/-- Without the plain name on the list, a call that succeeds has put the library before it. -/
theorem preloadSo_prepends (h : isPreloadingSo ld libiamroot = false) (hok : (preloadSo so ld).2 ≠ -1) :
    (preloadSo so ld).1 = some (prepended so ld) ∧ so ≠ [] ∧ ∀ curr, ld = some curr → (prepended so ld).length < pathMax := by
  have hrun : preloadSo so ld = setldPreload ld so := if_neg (by rw [h]; simp)
  rw [hrun] at hok ⊢
  unfold setldPreload at hok ⊢
  by_cases hso : so = []
  · rw [if_pos hso] at hok
    exact absurd rfl hok
  · rw [if_neg hso] at hok ⊢
    cases ld with
    | none => exact ⟨rfl, hso, by simp⟩
    | some curr =>
      unfold snprintf at hok ⊢
      by_cases hlen : (so ++ ':' :: curr).length < pathMax
      · simp only [if_pos hlen]
        exact ⟨rfl, hso, fun _ _ => hlen⟩
      · simp only [if_neg hlen] at hok
        exact absurd rfl hok

/-- A list is left as it is when it has the plain name, and when the library does not fit before it. -/
theorem preloaded_iff {l : Str} (hso : so ≠ []) :
    preloaded so (some l) = some l ↔ isInPreload libiamroot l = true ∨ pathMax ≤ so.length + 1 + l.length := by
  have hlen : (so ++ ':' :: l).length = so.length + 1 + l.length := by
    simp
    omega
  by_cases hin : isInPreload libiamroot l = true
  · have hfound : isPreloadingSo (some l) libiamroot = true := hin
    refine iff_of_true ?_ (.inl hin)
    rw [preloaded, preloadSo_found hfound]
  · have hrun : preloadSo so (some l) = setldPreload (some l) so := if_neg hin
    unfold preloaded
    rw [hrun, setldPreload, if_neg hso]
    unfold snprintf
    by_cases hroom : (so ++ ':' :: l).length < pathMax
    · simp only [if_pos hroom]
      refine iff_of_false ?_ ?_
      · intro heq
        have := congrArg List.length (Option.some.inj heq)
        omega
      · rintro (h | h)
        · exact hin h
        · omega
    · simp only [if_neg hroom]
      exact iff_of_true trivial (.inr (by omega))

/-- The plain name is on the list that a call leaves when it was on the list, or is the library's own. -/
theorem isPreloadingSo_prepended (h : isPreloadingSo ld libiamroot = false)
    (hlen : ∀ curr, ld = some curr → (prepended so ld).length < pathMax) :
    isInPreload libiamroot (prepended so ld) = isInPreload libiamroot so := by
  cases ld with
  | none => rfl
  | some curr =>
    have hcurr : isInPreload libiamroot curr = false := h
    show isInPreload libiamroot (so ++ ':' :: curr) = _
    rw [isInPreload_colon (hlen curr rfl), hcurr, Bool.or_false]

/-- More calls leave the list as it is, and the library's name is on it at most once. -/
def Settled (so : Str) (ld : Option Str) : Prop :=
  (∀ n, (preloaded so)^[n] ld = ld) ∧ ∀ l, ld = some l → names (basename so) l ≤ 1

/-- The plain name is on the list, and the library's own at most once; or the library is the first of its name, and has the
plain name unless there is no room for it a second time. -/
def OnceEnough (so : Str) (ld : Option Str) : Prop :=
  if isPreloadingSo ld libiamroot then ∀ l, ld = some l → names (basename so) l ≤ 1
  else names (basename so) so + ld.elim 0 (names (basename so)) ≤ 1 ∧
    (isInPreload libiamroot so = true ∨ pathMax ≤ so.length + 1 + (prepended so ld).length)

theorem iterate_iff {f : Option Str → Option Str} : (∀ n, f^[n] ld = ld) ↔ f ld = ld :=
  ⟨fun h => h 1, fun h n => Function.iterate_fixed h n⟩

/-- Once a call has succeeded, the list is settled exactly under this condition on the library and the list before it. -/
theorem preloadSo_settled (h : (preloadSo so ld).2 ≠ -1) : Settled so (preloadSo so ld).1 ↔ OnceEnough so ld := by
  unfold Settled OnceEnough
  rw [iterate_iff]
  by_cases hin : isPreloadingSo ld libiamroot = true
  · rw [if_pos hin, preloadSo_found hin]
    have hfix : preloaded so ld = ld := congrArg Prod.fst (preloadSo_found hin)
    exact ⟨fun h => h.2, fun h => ⟨hfix, h⟩⟩
  · rw [if_neg hin]
    rw [Bool.not_eq_true] at hin
    obtain ⟨hld, hso, hlen⟩ := preloadSo_prepends hin h
    have hnames : names (basename so) (prepended so ld) = names (basename so) so + ld.elim 0 (names (basename so)) := by
      cases ld with
      | none => rfl
      | some curr => exact names_colon _ _ _
    rw [hld, preloaded_iff hso, isPreloadingSo_prepended hin hlen, ← hnames]
    constructor
    · rintro ⟨h1, h2⟩
      exact ⟨h2 _ rfl, h1⟩
    · rintro ⟨h1, h2⟩
      refine ⟨h2, fun l hl => ?_⟩
      rwa [← Option.some.inj hl]

end

/-- A library of the plain name that is the first one on the list. -/
theorem preloadSo_settled_plain :
    Settled "/usr/lib/iamroot/libiamroot.so".toList
      (preloadSo "/usr/lib/iamroot/libiamroot.so".toList (some "/usr/lib/libfakeroot.so".toList)).1 := by
  refine (preloadSo_settled (by decide)).mpr ?_
  have hnot : isPreloadingSo (some "/usr/lib/libfakeroot.so".toList) libiamroot = false := by decide
  rw [OnceEnough, hnot, if_neg (by simp)]
  exact ⟨by decide, .inl (by decide)⟩

/-- A library of another name is on the list twice after two calls. -/
theorem preloadSo_grows :
    preloadSo "/l/libiamroot-musl.so.1".toList none = (some "/l/libiamroot-musl.so.1".toList, 0) ∧
      preloadSo "/l/libiamroot-musl.so.1".toList (some "/l/libiamroot-musl.so.1".toList) =
        (some "/l/libiamroot-musl.so.1:/l/libiamroot-musl.so.1".toList, 0) ∧
      ¬ Settled "/l/libiamroot-musl.so.1".toList (some "/l/libiamroot-musl.so.1".toList) := by
  refine ⟨by decide, by decide, fun h => ?_⟩
  have h1 : preloaded "/l/libiamroot-musl.so.1".toList (some "/l/libiamroot-musl.so.1".toList) =
      some "/l/libiamroot-musl.so.1".toList := h.1 1
  exact absurd h1 (by decide)

end Iamroot
