import Iamroot.Lib.Preorder
import Iamroot.ElfLists
import Iamroot.ResolutionSpec

/-!
# The objects to preload

`__ldso_preload_executable` goes through the objects that an executable needs and
adds each to a list with colons, which is also its record of what was met. Whether
an object is on the list is asked of the first `PATH_MAX` bytes alone, and what was
on the list before the walk is taken for done, with all that it needs.
-/

namespace Iamroot

open DepthFirst Relation ByteOrder

structure SharedObjects where
  host : Endian
  /-- `next_open`, and what the file has in it. -/
  file : Str → Option Bytes
  /-- `__path_access` in the library path. -/
  pathAccess : Str → Option Str
  /-- `__is_lib` of the base name. -/
  isLib : Str → Bool
  found_ne_nil : ∀ {needed path}, pathAccess needed = some path → path ≠ []

/-! ## The walk -/

/-- The elements that `strtok_r` cuts out of a list: none of them is empty. -/
def elements (s : Str) : List Str := (dirs s).filter (· ≠ [])

/-- What `__strtok` cuts: it copies `PATH_MAX` bytes. -/
def pathTokens (path : Str) : List Str := elements (path.take pathMax)

def isInPath (pathname path : Str) : Bool := decide (pathname ∈ pathTokens path)

/-- `__path_iterate`, with a list for the callback to add to; nothing when the fuel runs out. -/
def iterateList (callback : Str → Str → Option ListRead) : List Str → Str → Option ListRead
  | [], buf => some (.done buf)
  | t :: ts, buf =>
    match callback t buf with
    | some (.done buf') => iterateList callback ts buf'
    | r => r

section
variable (w : SharedObjects) (bufsiz : Nat)

def elfNeeded (path : Str) : ListRead :=
  match w.file path with
  | none => .fail
  | some f => felfNeeded w.host f

def ldsoPreloadNeededCallback (ldsoPreloadNeeded : Str → Str → Option ListRead) (needed buf : Str) : Option ListRead :=
  if isAbs needed then some (.done buf)
  else
    match w.pathAccess needed with
    | none => some .fail
    | some path =>
      if w.isLib path = false then some (.done buf)
      else if isInPath path buf then some (.done buf)
      else ldsoPreloadNeeded path buf

def preloadNeeds (ldsoPreloadNeeded : Str → Str → Option ListRead) (path buf : Str) : Option ListRead :=
  match elfNeeded w path with
  | .done needed => iterateList (ldsoPreloadNeededCallback w ldsoPreloadNeeded) (pathTokens needed) buf
  | r => some r

def ldsoPreloadNeeded : Nat → Str → Str → Option ListRead
  | 0, _, _ => none
  | fuel + 1, path, buf =>
    match pathStrncat buf path bufsiz with
    | .error _ => some .fail
    | .ok buf' => preloadNeeds w (ldsoPreloadNeeded fuel) path buf'

def ldsoPreloadExecutable (fuel : Nat) (path buf : Str) : Option ListRead :=
  preloadNeeds w (ldsoPreloadNeeded w bufsiz fuel) path buf

end

/-! ## What is asked of it -/

namespace SharedObjects
variable (w : SharedObjects)

def needs (path : Str) : Option (List Str) := (w.file path).bind fun f => allStrings w.host f dtNeeded

def entry (needed : Str) : Option Str :=
  if isAbs needed then none else (w.pathAccess needed).filter w.isLib

def next (path : Str) : List Str := ((w.needs path).getD []).filterMap w.entry

def Reached (exe path : Str) : Prop := TransGen (fun p q => q ∈ w.next p) exe path

def Fits (path : Str) : Prop := ([':'].intercalate ((w.needs path).getD [])).length < pathMax

/-- The executable and the libraries are objects that need plain names, which are found. -/
def WellFormed (exe : Str) : Prop := ∀ p, ReflTransGen (fun p q => q ∈ w.next p) exe p →
  ∃ strs, w.needs p = some strs ∧ ∀ s ∈ strs, s ≠ [] ∧ '/' ∉ s ∧ ':' ∉ s ∧ (w.pathAccess s).isSome = true

/-- The list is the one there was, and behind it what is needed, which is on it exactly once. None of the
objects needs more than can be listed. -/
structure Closure (exe initial list : Str) : Prop where
  appended : ∃ added : List Str, list = added.foldl joined initial ∧ ∀ q ∈ added, w.Reached exe q
  once : ∀ q, w.Reached exe q → (elements list).count q = 1
  listed : ∀ p, ReflTransGen (fun p q => q ∈ w.next p) exe p → w.Fits p

/-- The walk that asks the whole list what is on it, as long as the first bytes of the list tell the same. -/
inductive Told : List Str → Str → Str → Prop
  | nil (s : Str) : Told [] s s
  | again {q : Str} {l : List Str} {s s' : Str} : q ∈ elements s → isInPath q s = true → Told l s s' → Told (q :: l) s s'
  | enter {q : Str} {l : List Str} {s s' s'' : Str} : q ∉ elements s → isInPath q s = false →
    Told (w.next q) (joined s q) s' → Told l s' s'' → Told (q :: l) s s''

/-- The bytes that are looked at always tell what is on the list, no path has a colon, no object needs more than
can be listed, and each library is on the initial list once, or else is needed past all that is on it. -/
structure Faithful (exe initial : Str) : Prop where
  told : ∃ list, w.Told (w.next exe) initial list
  colon : ∀ q, w.Reached exe q → ':' ∉ q
  listed : ∀ p, ReflTransGen (fun p q => q ∈ w.next p) exe p → w.Fits p
  initial : ∀ q, w.Reached exe q →
    (elements initial).count q = 1 ∨ ReachedFrom w.next (w.next exe) (elements initial) q

end SharedObjects

/-! ## Lists -/

section
variable {s t q x : Str}

theorem dirs_of_no_colon (h : ':' ∉ s) : dirs s = [s] := by
  induction s with
  | nil => rfl
  | cons c s ih =>
    rw [List.mem_cons, not_or] at h
    exact dirs_cons (Ne.symm h.1) (ih h.2)

theorem elements_of_no_colon (h : ':' ∉ s) (hs : s ≠ []) : elements s = [s] := by
  rw [elements, dirs_of_no_colon h]
  simp [hs]

theorem elements_joined (hx : x ≠ []) (h : ':' ∉ x) : elements (joined s x) = elements s ++ [x] := by
  have hx' : elements x = [x] := elements_of_no_colon h hx
  by_cases hs : s = []
  · subst hs
    rw [joined]
    simp only [ne_eq, not_true_eq_false, false_and, if_false, List.append_nil, List.nil_append, hx']
    rfl
  · rw [joined, if_pos ⟨hs, hx⟩, List.append_assoc, List.singleton_append, elements, dirs_append, List.filter_append]
    exact congrArg (elements s ++ ·) hx'

theorem elements_foldl {added : List Str} (h : ∀ x ∈ added, x ≠ [] ∧ ':' ∉ x) (s : Str) :
    elements (added.foldl joined s) = elements s ++ added := by
  induction added generalizing s with
  | nil => simp
  | cons x added ih =>
    obtain ⟨hx, h⟩ := List.forall_mem_cons.mp h
    rw [List.foldl_cons, ih h, elements_joined hx.1 hx.2, List.append_assoc, List.singleton_append]

theorem elements_plain (hx : x ∈ elements s) : x ≠ [] ∧ ':' ∉ x := by
  rw [elements, List.mem_filter, decide_eq_true_eq] at hx
  refine ⟨hx.2, ?_⟩
  obtain ⟨hx, -⟩ := hx
  induction s generalizing x with
  | nil =>
    rw [dirs, List.mem_singleton] at hx
    simp [hx]
  | cons c s ih =>
    by_cases hc : c = ':'
    · subst hc
      rw [dirs_colon, List.mem_cons] at hx
      rcases hx with rfl | hx
      · simp
      · exact ih hx
    · obtain ⟨y, ys, hy⟩ := List.exists_cons_of_ne_nil (dirs_ne_nil s)
      rw [dirs_cons hc hy, List.mem_cons] at hx
      rcases hx with rfl | hx
      · rw [List.mem_cons, not_or]
        exact ⟨Ne.symm hc, ih (hy ▸ List.mem_cons_self)⟩
      · exact ih (hy ▸ List.mem_cons_of_mem _ hx)

theorem length_joined_lt (hx : x ≠ []) : s.length < (joined s x).length := by
  have hpos := List.length_pos_of_ne_nil hx
  rw [joined, List.length_append, List.length_append]
  omega

theorem isInPath_short (h : s.length < pathMax) : isInPath q s = decide (q ∈ elements s) := by
  rw [isInPath, pathTokens, List.take_of_length_le (by omega)]

/-- What the first bytes of a long list tell stays the same. -/
theorem isInPath_joined (h : pathMax ≤ s.length) : isInPath q (joined s x) = isInPath q s := by
  rw [isInPath, isInPath, pathTokens, pathTokens, joined, List.append_assoc, List.take_append_of_le_length h]

end

/-! ## The walk ends -/

section
variable {f g : Str → Str → Option ListRead} {ts : List Str} {s s' : Str} {r : ListRead} {m : Nat}

theorem iterateList_mono (h : ∀ t s r, f t s = some r → g t s = some r) (hr : iterateList f ts s = some r) :
    iterateList g ts s = some r := by
  induction ts generalizing s with
  | nil => exact hr
  | cons t ts ih =>
    rw [iterateList] at hr ⊢
    cases hf : f t s with
    | none => simp [hf] at hr
    | some o =>
      rw [h t s o hf]
      rw [hf] at hr
      cases o with
      | done s' => exact ih hr
      | fail | fault => exact hr

theorem iterateList_grows (h : ∀ t s s', f t s = some (.done s') → s.length ≤ s'.length)
    (hr : iterateList f ts s = some (.done s')) : s.length ≤ s'.length := by
  induction ts generalizing s with
  | nil => cases hr; exact Nat.le_refl _
  | cons t ts ih =>
    rw [iterateList] at hr
    cases hf : f t s with
    | none => simp [hf] at hr
    | some o =>
      rw [hf] at hr
      cases o with
      | done s₁ => exact Nat.le_trans (h t s s₁ hf) (ih hr)
      | fail | fault => cases hr

theorem iterateList_ends (h : ∀ t s, m ≤ s.length → f t s ≠ none)
    (hg : ∀ t s s', f t s = some (.done s') → s.length ≤ s'.length) (hs : m ≤ s.length) : iterateList f ts s ≠ none := by
  induction ts generalizing s with
  | nil => exact Option.some_ne_none _
  | cons t ts ih =>
    rw [iterateList]
    cases hf : f t s with
    | none => exact absurd hf (h t s hs)
    | some o =>
      cases o with
      | done s' => exact ih (Nat.le_trans hs (hg t s s' hf))
      | fail | fault => exact Option.some_ne_none _

end

section
variable {w : SharedObjects} {bufsiz n : Nat} {exe initial p q s s' : Str} {l : List Str} {r : ListRead}
  {f g : Str → Str → Option ListRead}

theorem callback_cases (w : SharedObjects) (t s : Str) : (∀ f, ldsoPreloadNeededCallback w f t s = some (.done s)) ∨
    (∀ f, ldsoPreloadNeededCallback w f t s = some .fail) ∨
    ∃ path, path ≠ [] ∧ isInPath path s = false ∧ ∀ f, ldsoPreloadNeededCallback w f t s = f path s := by
  unfold ldsoPreloadNeededCallback
  by_cases ha : isAbs t = true
  · exact .inl fun f => if_pos ha
  simp only [ha, Bool.false_eq_true, if_false]
  cases hp : w.pathAccess t with
  | none => exact .inr (.inl fun f => rfl)
  | some path =>
    dsimp only
    by_cases hl : w.isLib path = false
    · exact .inl fun f => if_pos hl
    simp only [hl]
    by_cases hin : isInPath path s = true
    · exact .inl fun f => if_pos hin
    · exact .inr (.inr ⟨path, w.found_ne_nil hp, by simpa using hin, fun f => if_neg hin⟩)

theorem callback_mono (h : ∀ t s r, f t s = some r → g t s = some r) (t s : Str) (r : ListRead)
    (hr : ldsoPreloadNeededCallback w f t s = some r) : ldsoPreloadNeededCallback w g t s = some r := by
  rcases callback_cases w t s with hc | hc | ⟨path, -, -, hc⟩
  · rw [hc] at hr ⊢
    exact hr
  · rw [hc] at hr ⊢
    exact hr
  · rw [hc] at hr ⊢
    exact h path s r hr

theorem callback_grows (h : ∀ t s s', f t s = some (.done s') → s.length ≤ s'.length) (t s s' : Str)
    (hr : ldsoPreloadNeededCallback w f t s = some (.done s')) : s.length ≤ s'.length := by
  rcases callback_cases w t s with hc | hc | ⟨path, -, -, hc⟩
  · rw [hc] at hr
    cases hr
    exact Nat.le_refl _
  · rw [hc] at hr
    cases hr
  · exact h path s s' (hc f ▸ hr)

theorem preloadNeeds_mono (h : ∀ t s r, f t s = some r → g t s = some r) (hr : preloadNeeds w f p s = some r) :
    preloadNeeds w g p s = some r := by
  unfold preloadNeeds at hr ⊢
  cases hn : elfNeeded w p with
  | done needed =>
    rw [hn] at hr
    exact iterateList_mono (callback_mono h) hr
  | fail | fault =>
    rw [hn] at hr
    exact hr

theorem ldsoPreloadNeeded_mono (n : Nat) : ∀ p s r, ldsoPreloadNeeded w bufsiz n p s = some r →
    ldsoPreloadNeeded w bufsiz (n + 1) p s = some r := by
  induction n with
  | zero => intro p s r hr; cases hr
  | succ n ih =>
    intro p s r hr
    rw [ldsoPreloadNeeded] at hr ⊢
    cases hcat : pathStrncat s p bufsiz with
    | error e =>
      rw [hcat] at hr
      exact hr
    | ok s' =>
      rw [hcat] at hr
      exact preloadNeeds_mono ih hr

theorem ldsoPreloadExecutable_mono {k : Nat} (hr : ldsoPreloadExecutable w bufsiz n p s = some r) :
    ldsoPreloadExecutable w bufsiz (n + k) p s = some r := by
  induction k with
  | zero => exact hr
  | succ k ih => exact preloadNeeds_mono (ldsoPreloadNeeded_mono (n + k)) ih

theorem pathStrncat_room (hp : p ≠ []) (h : pathStrncat s p bufsiz = .ok s') :
    s' = joined s p ∧ s.length < s'.length ∧ s'.length < bufsiz := by
  obtain ⟨hroom, rfl⟩ := pathStrncat_iff.mp h
  have hpos := List.length_pos_of_ne_nil hp
  refine ⟨rfl, length_joined_lt hp, ?_⟩
  by_cases hs : s = []
  · simp [joined, hs] at hroom ⊢
    omega
  · rw [if_neg hs] at hroom
    rw [joined, if_pos ⟨hs, hp⟩]
    simp only [List.length_append, List.length_singleton]
    omega

theorem pathStrncat_joined (hp : p ≠ []) (hs : s.length < bufsiz) : (∃ e, pathStrncat s p bufsiz = .error e) ∧
      bufsiz ≤ (joined s p).length ∨ pathStrncat s p bufsiz = .ok (joined s p) ∧ (joined s p).length < bufsiz := by
  cases h : pathStrncat s p bufsiz with
  | ok s' =>
    obtain ⟨rfl, -, hlt⟩ := pathStrncat_room hp h
    exact .inr ⟨rfl, hlt⟩
  | error e =>
    refine .inl ⟨⟨e, rfl⟩, ?_⟩
    rw [← Nat.not_lt]
    intro hlt
    have hok : pathStrncat s p bufsiz = .ok (joined s p) := by
      refine pathStrncat_iff.mpr ⟨?_, rfl⟩
      by_cases hs0 : s = []
      · simp [joined, hs0] at hlt ⊢
        omega
      · rw [joined, if_pos ⟨hs0, hp⟩] at hlt
        simp only [List.length_append, List.length_singleton] at hlt
        rw [if_neg hs0]
        omega
    rw [hok] at h
    cases h

theorem preloadNeeds_grows (h : ∀ t s s', f t s = some (.done s') → s.length ≤ s'.length)
    (hr : preloadNeeds w f p s = some (.done s')) : s.length ≤ s'.length := by
  unfold preloadNeeds at hr
  cases hn : elfNeeded w p with
  | done needed =>
    rw [hn] at hr
    exact iterateList_grows (callback_grows h) hr
  | fail | fault =>
    rw [hn] at hr
    cases hr

theorem ldsoPreloadNeeded_grows (n : Nat) : ∀ p s s', ldsoPreloadNeeded w bufsiz n p s = some (.done s') →
    s.length ≤ s'.length := by
  induction n with
  | zero => intro p s s' hr; cases hr
  | succ n ih =>
    intro p s s' hr
    rw [ldsoPreloadNeeded] at hr
    cases hcat : pathStrncat s p bufsiz with
    | error e =>
      rw [hcat] at hr
      cases hr
    | ok s₁ =>
      rw [hcat] at hr
      obtain ⟨-, rfl⟩ := pathStrncat_iff.mp hcat
      refine Nat.le_trans ?_ (preloadNeeds_grows ih hr)
      rw [joined, List.length_append, List.length_append]
      omega

theorem preloadNeeds_ends {m : Nat} (h : ∀ p s, p ≠ [] → m ≤ s.length → ldsoPreloadNeeded w bufsiz n p s ≠ none)
    (hs : m ≤ s.length) : preloadNeeds w (ldsoPreloadNeeded w bufsiz n) p s ≠ none := by
  unfold preloadNeeds
  cases elfNeeded w p with
  | fail | fault => exact Option.some_ne_none _
  | done needed =>
    refine iterateList_ends (m := m) (fun t s hm => ?_) (callback_grows (ldsoPreloadNeeded_grows n)) hs
    rcases callback_cases w t s with hc | hc | ⟨path, hp, -, hc⟩
    · simp [hc]
    · simp [hc]
    · rw [hc]
      exact h path s hp hm

/-- Each call has less room than the one that makes it. -/
theorem ldsoPreloadNeeded_ends (n : Nat) : ∀ p s, p ≠ [] → bufsiz ≤ n + s.length →
    ldsoPreloadNeeded w bufsiz (n + 1) p s ≠ none := by
  induction n with
  | zero =>
    intro p s hp hs
    rw [ldsoPreloadNeeded]
    cases hcat : pathStrncat s p bufsiz with
    | error e => exact Option.some_ne_none _
    | ok s' =>
      obtain ⟨-, h1, h2⟩ := pathStrncat_room hp hcat
      omega
  | succ n ih =>
    intro p s hp hs
    rw [ldsoPreloadNeeded]
    cases hcat : pathStrncat s p bufsiz with
    | error e => exact Option.some_ne_none _
    | ok s' =>
      obtain ⟨-, h1, h2⟩ := pathStrncat_room hp hcat
      exact preloadNeeds_ends (m := bufsiz - n) (fun p s hp hm => ih p s hp (by omega)) (by omega)

/-- The walk ends, whatever the objects need. -/
theorem ldsoPreloadExecutable_ends (w : SharedObjects) (bufsiz : Nat) (exe initial : Str) :
    ∃ r, Settles (fun fuel => ldsoPreloadExecutable w bufsiz fuel exe initial) (some r) := by
  have hne : ldsoPreloadExecutable w bufsiz (bufsiz + 1) exe initial ≠ none :=
    preloadNeeds_ends (m := 0) (fun p s hp _ => ldsoPreloadNeeded_ends bufsiz p s hp (by omega)) (Nat.zero_le _)
  obtain ⟨r, hr⟩ := Option.ne_none_iff_exists'.mp hne
  exact ⟨r, bufsiz + 1, fun k => ldsoPreloadExecutable_mono hr⟩

/-! ## The names of well-formed objects -/

/-- A library that is on the list is not walked again. -/
def visitOnce (ldsoPreloadNeeded : Str → Str → Option ListRead) (path buf : Str) : Option ListRead :=
  if isInPath path buf then some (.done buf) else ldsoPreloadNeeded path buf

theorem visitOnce_cases (f : Str → Str → Option ListRead) (p s : Str) :
    isInPath p s = true ∧ visitOnce f p s = some (.done s) ∨ isInPath p s = false ∧ visitOnce f p s = f p s := by
  cases hin : isInPath p s with
  | true => exact .inl ⟨rfl, if_pos hin⟩
  | false => exact .inr ⟨rfl, if_neg (by simp [hin])⟩

theorem isAbs_of_no_slash (h : '/' ∉ s) : isAbs s = false := by
  cases s with
  | nil => rfl
  | cons c s =>
    rw [List.mem_cons, not_or] at h
    simpa [isAbs] using Ne.symm h.1

/-- A loop over plain names is one over the libraries that they lead to. -/
theorem iterateList_entries {strs : List Str} (h : ∀ t ∈ strs, '/' ∉ t ∧ (w.pathAccess t).isSome = true) (s : Str) :
    iterateList (ldsoPreloadNeededCallback w f) strs s = iterateList (visitOnce f) (strs.filterMap w.entry) s := by
  induction strs generalizing s with
  | nil => rfl
  | cons t strs ih =>
    obtain ⟨⟨hslash, hfound⟩, h⟩ := List.forall_mem_cons.mp h
    obtain ⟨path, hp⟩ := Option.isSome_iff_exists.mp hfound
    have ha : ¬ isAbs t = true := by simp [isAbs_of_no_slash hslash]
    rw [iterateList, ldsoPreloadNeededCallback, if_neg ha, hp]
    dsimp only
    by_cases hl : w.isLib path = true
    · have he : w.entry t = some path := by rw [SharedObjects.entry, if_neg ha, hp, Option.filter_some, if_pos hl]
      rw [if_neg (by simp [hl]), List.filterMap_cons_some he, iterateList, visitOnce]
      split <;> simp [ih h]
    · have he : w.entry t = none := by rw [SharedObjects.entry, if_neg ha, hp, Option.filter_some, if_neg hl]
      rw [if_pos (by simpa using hl), List.filterMap_cons_none he]
      exact ih h s

theorem elfNeeded_listed {strs : List Str} (hn : w.needs p = some strs) (hplain : ∀ t ∈ strs, t ≠ [] ∧ ':' ∉ t)
    (hf : w.Fits p) : ∃ needed, elfNeeded w p = .done needed ∧ pathTokens needed = strs := by
  rw [SharedObjects.Fits, hn, Option.getD_some] at hf
  have hmem : [] ∉ strs := fun h => (hplain [] h).1 rfl
  obtain ⟨file, hfile, hall⟩ := Option.bind_eq_some_iff.mp hn
  obtain ⟨segs, hsegs, hmap⟩ := Option.bind_eq_some_iff.mp hall
  have hrun := runSegments_kept segs [] [] (-1) hmap (fitsAll_of_intercalate hf fun h => absurd h hmem)
  have hread : felfNeeded w.host file = .done (strs.foldl joined []) := (felfList_read rfl hsegs hrun).1
  refine ⟨strs.foldl joined [], by rw [elfNeeded, hfile, ← hread], ?_⟩
  rw [foldl_joined_nil hmem, pathTokens, List.take_of_length_le (by omega), ← foldl_joined_nil hmem, elements_foldl hplain]
  rfl

theorem preloadNeeds_next (hw : w.WellFormed exe) (hp : ReflTransGen (fun p q => q ∈ w.next p) exe p) (hf : w.Fits p) :
    preloadNeeds w f p s = iterateList (visitOnce f) (w.next p) s := by
  obtain ⟨strs, hn, h⟩ := hw p hp
  obtain ⟨needed, hdone, htok⟩ := elfNeeded_listed hn (fun t ht => ⟨(h t ht).1, (h t ht).2.2.1⟩) hf
  rw [preloadNeeds, hdone, SharedObjects.next, hn]
  dsimp only
  rw [htok]
  exact iterateList_entries (fun t ht => ⟨(h t ht).2.1, (h t ht).2.2.2⟩) s

theorem mem_next (hq : q ∈ w.next p) : q ≠ [] := by
  obtain ⟨t, -, ht⟩ := List.mem_filterMap.mp hq
  unfold SharedObjects.entry at ht
  split at ht
  · cases ht
  · exact w.found_ne_nil (Option.filter_eq_some_iff.mp ht).1

theorem SharedObjects.Reached.ne_nil (h : w.Reached exe q) : q ≠ [] := by
  obtain ⟨p, -, hp⟩ := TransGen.tail'_iff.mp h
  exact mem_next hp

theorem SharedObjects.Told.grows (h : w.Told l s s') : s.length ≤ s'.length := by
  induction h with
  | nil s => exact Nat.le_refl _
  | again _ _ _ ih => exact ih
  | @enter q l s s' s'' _ _ _ _ ih ih' =>
    have hle : s.length ≤ (joined s q).length := by
      rw [joined, List.length_append, List.length_append]
      omega
    exact Nat.le_trans hle (Nat.le_trans ih ih')

/-- The walk that asks the whole list is the walk of a record. -/
theorem told_enters (hc : ∀ q, w.Reached exe q → ':' ∉ q) (h : w.Told l s s') (hl : ∀ q ∈ l, w.Reached exe q) :
    Enters w.next l (elements s) (elements s') ∧
      ∃ added : List Str, s' = added.foldl joined s ∧ ∀ q ∈ added, w.Reached exe q := by
  induction h with
  | nil s => exact ⟨.nil _, [], rfl, by simp⟩
  | again hmem _ _ ih =>
    obtain ⟨-, hl⟩ := List.forall_mem_cons.mp hl
    exact ⟨.again hmem (ih hl).1, (ih hl).2⟩
  | @enter q l s s' s'' hmem _ _ _ ih ih' =>
    obtain ⟨hq, hl⟩ := List.forall_mem_cons.mp hl
    obtain ⟨h1, added, rfl, ha⟩ := ih fun x hx => hq.tail hx
    obtain ⟨h2, added', rfl, ha'⟩ := ih' hl
    rw [elements_joined hq.ne_nil (hc q hq)] at h1
    refine ⟨.enter hmem h1 h2, q :: (added ++ added'), by rw [List.foldl_cons, List.foldl_append], ?_⟩
    exact List.forall_mem_cons.mpr ⟨hq, List.forall_mem_append.mpr ⟨ha, ha'⟩⟩

/-! ## A list that tells what is on it -/

/-- The walk follows the one that asks the whole list, while there is room. -/
theorem told_run (hw : w.WellFormed exe) (hf : ∀ p, ReflTransGen (fun p q => q ∈ w.next p) exe p → w.Fits p)
    (h : w.Told l s s') (hl : ∀ q ∈ l, w.Reached exe q) (hs : s.length < bufsiz) :
    ∃ n, ∀ k, iterateList (visitOnce (ldsoPreloadNeeded w bufsiz (n + k))) l s =
      some (if s'.length < bufsiz then .done s' else .fail) := by
  induction h with
  | nil s => exact ⟨0, fun k => by rw [if_pos hs]; rfl⟩
  | again _ hin _ ih =>
    obtain ⟨-, hl⟩ := List.forall_mem_cons.mp hl
    obtain ⟨n, hn⟩ := ih hl hs
    refine ⟨n, fun k => ?_⟩
    rw [iterateList, visitOnce, if_pos hin]
    exact hn k
  | @enter q l s s' s'' _ hin ht ht' ih ih' =>
    obtain ⟨hq, hl⟩ := List.forall_mem_cons.mp hl
    have hout : ¬ isInPath q s = true := by simp [hin]
    have hgrows : (joined s q).length ≤ s'.length ∧ s'.length ≤ s''.length := ⟨ht.grows, ht'.grows⟩
    rcases pathStrncat_joined hq.ne_nil hs with ⟨⟨e, hcat⟩, hlt⟩ | ⟨hcat, hlt⟩
    · refine ⟨1, fun k => ?_⟩
      rw [if_neg (by omega), iterateList, visitOnce, if_neg hout, Nat.add_comm, ldsoPreloadNeeded, hcat]
    · have hnext : ∀ x ∈ w.next q, w.Reached exe x := fun x hx => hq.tail hx
      obtain ⟨n, hn⟩ := ih hnext hlt
      have hstep : ∀ k, visitOnce (ldsoPreloadNeeded w bufsiz (n + 1 + k)) q s =
          some (if s'.length < bufsiz then .done s' else .fail) := by
        intro k
        have hk : n + 1 + k = n + k + 1 := by omega
        rw [visitOnce, if_neg hout, hk, ldsoPreloadNeeded, hcat]
        dsimp only
        rw [preloadNeeds_next hw hq.to_reflTransGen (hf q hq.to_reflTransGen)]
        exact hn k
      by_cases hlt' : s'.length < bufsiz
      · obtain ⟨m, hm⟩ := ih' hl hlt'
        refine ⟨n + 1 + m, fun k => ?_⟩
        have h1 : n + 1 + m + k = n + 1 + (m + k) := by omega
        have h2 : n + 1 + m + k = m + (n + 1 + k) := by omega
        have hfirst : visitOnce (ldsoPreloadNeeded w bufsiz (n + 1 + m + k)) q s = some (.done s') := by
          rw [h1, hstep, if_pos hlt']
        rw [iterateList, hfirst, h2]
        exact hm (n + 1 + k)
      · refine ⟨n + 1, fun k => ?_⟩
        rw [iterateList, hstep, if_neg hlt', if_neg (by omega)]

/-- On a long list something that is needed stands twice, or is missing and will be taken for being there. -/
def Spoiled (w : SharedObjects) (exe s : Str) : Prop := pathMax ≤ s.length ∧ ∃ q, w.Reached exe q ∧
  (2 ≤ (elements s).count q ∨ isInPath q s = true ∧ q ∉ elements s)

theorem Spoiled.joined (hp : p ≠ []) (hc : ':' ∉ p) (hin : isInPath p s = false) (h : Spoiled w exe s) :
    Spoiled w exe (joined s p) := by
  obtain ⟨hlen, q, hq, h⟩ := h
  refine ⟨Nat.le_of_lt (Nat.lt_of_le_of_lt hlen (length_joined_lt hp)), q, hq, ?_⟩
  rcases h with htwice | ⟨hseen, hno⟩
  · refine .inl ?_
    rw [elements_joined hp hc, List.count_append]
    omega
  · refine .inr ⟨?_, ?_⟩
    · rw [isInPath_joined hlen]
      exact hseen
    · rw [elements_joined hp hc, List.mem_append, List.mem_singleton, not_or]
      refine ⟨hno, fun he => ?_⟩
      rw [he, hin] at hseen
      cases hseen

theorem iterateList_kept {P : Str → Prop} (h : ∀ t ∈ l, ∀ s s', f t s = some (.done s') → P s → P s')
    (hr : iterateList f l s = some (.done s')) (hs : P s) : P s' := by
  induction l generalizing s with
  | nil => cases hr; exact hs
  | cons t l ih =>
    obtain ⟨ht, h⟩ := List.forall_mem_cons.mp h
    rw [iterateList] at hr
    cases hf : f t s with
    | none => simp [hf] at hr
    | some o =>
      rw [hf] at hr
      cases o with
      | done s₁ => exact ih h hr (ht s s₁ hf hs)
      | fail | fault => cases hr

variable (hw : w.WellFormed exe) (hf : ∀ p, ReflTransGen (fun p q => q ∈ w.next p) exe p → w.Fits p)
include hw hf

theorem ldsoPreloadNeeded_done (hq : w.Reached exe q) (h : ldsoPreloadNeeded w bufsiz n q s = some (.done s')) :
    ∃ m, n = m + 1 ∧ iterateList (visitOnce (ldsoPreloadNeeded w bufsiz m)) (w.next q) (joined s q) = some (.done s') := by
  cases n with
  | zero => cases h
  | succ m =>
    rw [ldsoPreloadNeeded] at h
    cases hcat : pathStrncat s q bufsiz with
    | error e =>
      rw [hcat] at h
      cases h
    | ok s₁ =>
      rw [hcat] at h
      dsimp only at h
      rw [preloadNeeds_next hw hq.to_reflTransGen (hf q hq.to_reflTransGen)] at h
      obtain ⟨rfl, -⟩ := pathStrncat_room hq.ne_nil hcat
      exact ⟨m, rfl, h⟩

variable (hc : ∀ q, w.Reached exe q → ':' ∉ q)
include hc

theorem spoiled_visitOnce (n : Nat) : ∀ q s s', w.Reached exe q →
    visitOnce (ldsoPreloadNeeded w bufsiz n) q s = some (.done s') → Spoiled w exe s → Spoiled w exe s' := by
  induction n with
  | zero =>
    intro q s s' hq hr hs
    rcases visitOnce_cases (ldsoPreloadNeeded w bufsiz 0) q s with ⟨-, hv⟩ | ⟨-, hv⟩
    · rw [hv] at hr
      cases hr
      exact hs
    · rw [hv] at hr
      cases hr
  | succ n ih =>
    intro q s s' hq hr hs
    rcases visitOnce_cases (ldsoPreloadNeeded w bufsiz (n + 1)) q s with ⟨-, hv⟩ | ⟨hin, hv⟩
    · rw [hv] at hr
      cases hr
      exact hs
    · obtain ⟨m, hm, hr⟩ := ldsoPreloadNeeded_done hw hf hq (hv ▸ hr)
      cases hm
      exact iterateList_kept (fun t ht s s' => ih t s s' (hq.tail ht)) hr (hs.joined hq.ne_nil (hc q hq) hin)

/-- A library that is added again spoils the list. -/
theorem spoiled_again (hq : w.Reached exe q) (hmem : q ∈ elements s) (hin : isInPath q s = false)
    (h : ldsoPreloadNeeded w bufsiz n q s = some (.done s')) : Spoiled w exe s' := by
  obtain ⟨m, -, hr⟩ := ldsoPreloadNeeded_done hw hf hq h
  have hlen : pathMax ≤ s.length := by
    rw [← Nat.not_lt]
    intro hlt
    rw [isInPath_short hlt, decide_eq_false_iff_not] at hin
    exact hin hmem
  refine iterateList_kept (fun t ht s s' => spoiled_visitOnce hw hf hc m t s s' (hq.tail ht)) hr
    ⟨Nat.le_of_lt (Nat.lt_of_le_of_lt hlen (length_joined_lt hq.ne_nil)), q, hq, .inl ?_⟩
  have hpos := List.count_pos_iff.mpr hmem
  rw [elements_joined hq.ne_nil (hc q hq), List.count_append, List.count_singleton_self]
  omega

theorem told_or_spoiled_loop (n : Nat) (hstep : ∀ q s s', w.Reached exe q →
      ldsoPreloadNeeded w bufsiz n q s = some (.done s') → w.Told (w.next q) (joined s q) s' ∨ Spoiled w exe s')
    (hl : ∀ q ∈ l, w.Reached exe q) (hr : iterateList (visitOnce (ldsoPreloadNeeded w bufsiz n)) l s = some (.done s')) :
    w.Told l s s' ∨ Spoiled w exe s' := by
  induction l generalizing s with
  | nil =>
    cases hr
    exact .inl (.nil _)
  | cons q l ih =>
    obtain ⟨hq, hl⟩ := List.forall_mem_cons.mp hl
    have hkeep : ∀ {s}, iterateList (visitOnce (ldsoPreloadNeeded w bufsiz n)) l s = some (.done s') →
        Spoiled w exe s → Spoiled w exe s' :=
      iterateList_kept fun t ht s s' => spoiled_visitOnce hw hf hc n t s s' (hl t ht)
    rw [iterateList] at hr
    rcases visitOnce_cases (ldsoPreloadNeeded w bufsiz n) q s with ⟨hin, hv⟩ | ⟨hin, hv⟩
    · rw [hv] at hr
      by_cases hmem : q ∈ elements s
      · exact (ih hl hr).imp_left (.again hmem hin)
      · refine .inr (hkeep hr ⟨?_, q, hq, .inr ⟨hin, hmem⟩⟩)
        rw [← Nat.not_lt]
        intro hlt
        rw [isInPath_short hlt, decide_eq_true_eq] at hin
        exact hmem hin
    · cases hrec : ldsoPreloadNeeded w bufsiz n q s with
      | none => simp [hv, hrec] at hr
      | some o =>
        rw [hv, hrec] at hr
        cases o with
        | fail | fault => cases hr
        | done s₁ =>
          dsimp only at hr
          by_cases hmem : q ∈ elements s
          · exact .inr (hkeep hr (spoiled_again hw hf hc hq hmem hin hrec))
          · rcases hstep q s s₁ hq hrec with ht | hb
            · exact (ih hl hr).imp_left (.enter hmem hin ht)
            · exact .inr (hkeep hr hb)

/-- Unless something was spoiled, the list has always told what was on it. -/
theorem told_or_spoiled (n : Nat) (hl : ∀ q ∈ l, w.Reached exe q)
    (hr : iterateList (visitOnce (ldsoPreloadNeeded w bufsiz n)) l s = some (.done s')) : w.Told l s s' ∨ Spoiled w exe s' := by
  induction n generalizing l s s' with
  | zero => exact told_or_spoiled_loop hw hf hc 0 (fun q s s' _ h => by cases h) hl hr
  | succ n ih =>
    refine told_or_spoiled_loop hw hf hc (n + 1) (fun q s s' hq h => ?_) hl hr
    obtain ⟨m, hm, h⟩ := ldsoPreloadNeeded_done hw hf hq h
    cases hm
    exact ih (fun x hx => hq.tail hx) h

end

/-! ## The closure -/

section
variable {w : SharedObjects} {bufsiz : Nat} {exe initial list : Str}

theorem reached_next {q : Str} (hq : q ∈ w.next exe) : w.Reached exe q := .single hq

theorem SharedObjects.Faithful.closure (h : w.Faithful exe initial) (ht : w.Told (w.next exe) initial list) :
    w.Closure exe initial list := by
  obtain ⟨henters, happ⟩ := told_enters h.colon ht fun _ hq => reached_next hq
  refine ⟨happ, fun q hq => ?_, h.listed⟩
  obtain ⟨added, hadd, hnodup, hfrom⟩ := henters.grows
  rw [hadd, List.count_append]
  rcases h.initial q hq with hone | hr
  · have hno : q ∉ added := fun hm => (hfrom q hm).not_mem (List.count_pos_iff.mp (by omega))
    rw [hone, List.count_eq_zero_of_not_mem hno]
  · have hmem : q ∈ elements list := henters.mem_iff.mpr (.inr hr)
    rw [hadd, List.mem_append] at hmem
    rw [List.count_eq_zero_of_not_mem hr.not_mem, List.count_eq_one_of_mem hnodup (hmem.resolve_left hr.not_mem)]

theorem SharedObjects.Closure.faithful (hw : w.WellFormed exe) (h : w.Closure exe initial list) {n : Nat}
    (hr : ldsoPreloadExecutable w bufsiz n exe initial = some (.done list)) : w.Faithful exe initial := by
  have hmem : ∀ q, w.Reached exe q → q ∈ elements list := fun q hq => List.count_pos_iff.mp (by rw [h.once q hq]; omega)
  have hcolon : ∀ q, w.Reached exe q → ':' ∉ q := fun q hq => (elements_plain (hmem q hq)).2
  have hnext : ∀ q ∈ w.next exe, w.Reached exe q := fun q hq => reached_next hq
  rw [ldsoPreloadExecutable, preloadNeeds_next hw .refl (h.listed exe .refl)] at hr
  have ht : w.Told (w.next exe) initial list := by
    refine (told_or_spoiled hw h.listed hcolon n hnext hr).resolve_right ?_
    rintro ⟨-, q, hq, htwice | ⟨-, hno⟩⟩
    · rw [h.once q hq] at htwice
      omega
    · exact hno (hmem q hq)
  refine ⟨⟨list, ht⟩, hcolon, h.listed, fun q hq => ?_⟩
  obtain ⟨henters, -⟩ := told_enters hcolon ht hnext
  refine (henters.mem_iff.mp (hmem q hq)).imp_left fun hin => ?_
  obtain ⟨added, hadd, -⟩ := henters.grows
  have hone := h.once q hq
  have hpos := List.count_pos_iff.mpr hin
  rw [hadd, List.count_append] at hone
  omega

/-- A list that is returned and shorter than `PATH_MAX` is the closure, when nothing that is needed was on it. -/
theorem closure_of_short (hw : w.WellFormed exe) (hf : ∀ p, ReflTransGen (fun p q => q ∈ w.next p) exe p → w.Fits p)
    (hc : ∀ q, w.Reached exe q → ':' ∉ q) (hi : ∀ q, w.Reached exe q → q ∉ elements initial) {n : Nat}
    (hr : ldsoPreloadExecutable w bufsiz n exe initial = some (.done list)) (hlen : list.length < pathMax) :
    w.Closure exe initial list := by
  rw [ldsoPreloadExecutable, preloadNeeds_next hw .refl (hf exe .refl)] at hr
  have ht := (told_or_spoiled hw hf hc n (fun _ hq => reached_next hq) hr).resolve_right fun h => Nat.not_lt.mpr h.1 hlen
  refine SharedObjects.Faithful.closure ⟨⟨list, ht⟩, hc, hf, fun q hq => .inr ?_⟩ ht
  have hq' : w.Reached exe q := hq
  induction hq with
  | single hx => exact ⟨_, hx, hi _ (reached_next hx), .refl⟩
  | tail hx hxy ih =>
    obtain ⟨p, hp, hps, h⟩ := ih hx
    exact ⟨p, hp, hps, h.tail ⟨hxy, hi _ hq'⟩⟩

/-- **The objects to preload.** The walk ends; the list it returns is the closure of the executable exactly when
its first bytes have always told what was on it and the initial list was done; and then it is returned if there is
room for it, and -1 if not. -/
theorem ldsoPreloadExecutable_closure (hw : w.WellFormed exe) (hi : initial.length < bufsiz) :
    (∃ r, Settles (fun fuel => ldsoPreloadExecutable w bufsiz fuel exe initial) (some r)) ∧
    (∀ list, Settles (fun fuel => ldsoPreloadExecutable w bufsiz fuel exe initial) (some (.done list)) →
      (w.Closure exe initial list ↔ w.Faithful exe initial)) ∧
    (w.Faithful exe initial → ∃ list, w.Closure exe initial list ∧
      Settles (fun fuel => ldsoPreloadExecutable w bufsiz fuel exe initial)
        (some (if list.length < bufsiz then .done list else .fail))) := by
  have hfaithful : w.Faithful exe initial → ∃ list, w.Closure exe initial list ∧
      Settles (fun fuel => ldsoPreloadExecutable w bufsiz fuel exe initial)
        (some (if list.length < bufsiz then .done list else .fail)) := by
    intro h
    obtain ⟨list, ht⟩ := h.told
    obtain ⟨n, hn⟩ := told_run hw h.listed ht (fun _ hq => reached_next hq) hi
    refine ⟨list, h.closure ht, n, fun k => ?_⟩
    rw [← hn k]
    exact preloadNeeds_next hw .refl (h.listed exe .refl)
  refine ⟨ldsoPreloadExecutable_ends w bufsiz exe initial, fun list hdone => ⟨fun h => ?_, fun h => ?_⟩, hfaithful⟩
  · obtain ⟨n, hn⟩ := hdone
    exact h.faithful hw (hn 0)
  · obtain ⟨list', hcl, hset⟩ := hfaithful h
    have heq := Option.some.inj (Settles.unique hset hdone)
    split at heq
    · cases heq
      exact hcl
    · cases heq

end

def smallObject (entries : List (Byte × Byte)) : Bytes :=
  let half (x : Byte) : Bytes := [x, 0]
  let word (x : Byte) : Bytes := [x, 0, 0, 0]
  elfMag ++ [1, 1, 1, 0, 0, 0, 0, 0, 0, 0, 0, 0] ++ half 3 ++ half 3 ++ word 1 ++ word 0 ++ word 52 ++ word 113 ++ word 0 ++
    half 52 ++ half 32 ++ half 1 ++ half 40 ++ half 1 ++ half 0 ++
  (word 2 ++ word 84 ++ word 84 ++ word 84 ++ word 24 ++ word 24 ++ word 6 ++ word 4) ++
  entries.flatMap (fun e => word e.1 ++ word e.2) ++ [0, 0x61, 0, 0x62, 0] ++
  (word 0 ++ word 3 ++ word 2 ++ word 108 ++ word 108 ++ word 5 ++ word 0 ++ word 0 ++ word 1 ++ word 0)

def threeObjects : SharedObjects where
  host := .little
  file path := if path = "/e".toList then some (smallObject [(1, 1), (1, 3), (0, 0)])
    else if path = "/a".toList then some (smallObject [(1, 3), (0, 0), (0, 0)])
    else if path = "/b".toList then some (smallObject [(0, 0), (0, 0), (0, 0)]) else none
  pathAccess needed := some ('/' :: needed)
  isLib _ := true
  found_ne_nil := by
    intro needed path h
    cases h
    exact List.cons_ne_nil _ _

theorem threeObjects_next : threeObjects.next "/e".toList = ["/a".toList, "/b".toList] ∧
    threeObjects.next "/a".toList = ["/b".toList] ∧ threeObjects.next "/b".toList = [] := by
  decide

theorem threeObjects_cases {p : Str} (h : ReflTransGen (fun p q => q ∈ threeObjects.next p) "/e".toList p) :
    p = "/e".toList ∨ p = "/a".toList ∨ p = "/b".toList := by
  obtain ⟨he, ha, hb⟩ := threeObjects_next
  induction h with
  | refl => exact .inl rfl
  | tail _ hq ih =>
    rcases ih with rfl | rfl | rfl
    · rw [he] at hq
      exact .inr (by simpa using hq)
    · rw [ha] at hq
      simp at hq
      exact .inr (.inr hq)
    · rw [hb] at hq
      cases hq

theorem threeObjects_wellFormed : threeObjects.WellFormed "/e".toList := by
  intro p hp
  rcases threeObjects_cases hp with rfl | rfl | rfl
  · exact ⟨["a".toList, "b".toList], by decide +kernel, by decide⟩
  · exact ⟨["b".toList], by decide, by decide⟩
  · exact ⟨[], by decide, by decide⟩

theorem threeObjects_fits {p : Str} (hp : ReflTransGen (fun p q => q ∈ threeObjects.next p) "/e".toList p) :
    threeObjects.Fits p := by
  unfold SharedObjects.Fits
  rcases threeObjects_cases hp with rfl | rfl | rfl <;> decide +kernel

theorem threeObjects_colon {p : Str} (hp : threeObjects.Reached "/e".toList p) : ':' ∉ p := by
  rcases threeObjects_cases hp.to_reflTransGen with rfl | rfl | rfl <;> decide

/-- From an empty list. -/
theorem ldsoPreloadExecutable_closure_three : threeObjects.Faithful "/e".toList [] := by
  have hrun : ldsoPreloadExecutable threeObjects 8192 5 "/e".toList [] = some (.done "/a:/b".toList) := by decide
  have hset : Settles (fun fuel => ldsoPreloadExecutable threeObjects 8192 fuel "/e".toList []) (some (.done "/a:/b".toList)) :=
    ⟨5, fun k => ldsoPreloadExecutable_mono hrun⟩
  refine ((ldsoPreloadExecutable_closure threeObjects_wellFormed (by decide)).2.1 _ hset).mp ?_
  exact closure_of_short threeObjects_wellFormed (fun _ => threeObjects_fits) (fun _ => threeObjects_colon)
    (fun _ _ => List.not_mem_nil) hrun (by decide)

def longPreload : Str := '/' :: List.replicate 4095 'i'

set_option maxRecDepth 20000 in
/-- From a long list, `b` is added twice. -/
theorem ldsoPreloadExecutable_twice :
    Settles (fun fuel => ldsoPreloadExecutable threeObjects 8192 fuel "/e".toList longPreload)
      (some (.done (longPreload ++ ":/a:/b:/b".toList))) ∧
    ¬ threeObjects.Closure "/e".toList longPreload (longPreload ++ ":/a:/b:/b".toList) := by
  refine ⟨⟨5, fun k => ldsoPreloadExecutable_mono (by decide +kernel)⟩, fun h => ?_⟩
  have hb : threeObjects.Reached "/e".toList "/b".toList := .single (by rw [threeObjects_next.1]; decide)
  exact absurd (h.once _ hb) (by decide)

end Iamroot
