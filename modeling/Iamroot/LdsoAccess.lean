import Iamroot.LdsoCache
import Iamroot.LibPath

/-!
# The search for a shared object

`__ldso_access` searches for a soname in several places, in the order of
ld-linux.so(8): the lists of directories, and the cache before the last of them.
Inside of a list, `__path_access` goes on after a directory that cannot be
searched. From one place to the next the search goes on after `ENOENT` only.
-/

namespace Iamroot

open ByteOrder

structure SearchHost extends Probes where
  /-- `__secure_execution_mode`. -/
  secure : Bool
  /-- The bytes of `ld.so.cache`, or why it is not read. -/
  cacheFile : Except Errno Bytes
  endian : Endian
  /-- `__getrootdir`. -/
  root : Str
  /-- Whether there is anything at a path of the host. -/
  there : Str → Bool
  /-- What an accessible path resolves to is there. -/
  reachable : ∀ path s, access path = none → resolution path = .ok s → there s = true
  /-- A path that is accessible fits in `PATH_MAX`. -/
  short : ∀ path, access path = none → path.length < pathMax

/-- Where a soname is searched for: a list of directories, which may be a null pointer, or the cache. -/
inductive SearchPlace where
  | list (path : Option Str)
  | cache

section
variable (w : SearchHost) (file : Str) (bufsiz : Nat)

def SearchHost.cached : Except Errno Str :=
  match w.cacheFile with
  | .error errno => .error errno
  | .ok f => ldsoCache w.endian f w.root file bufsiz

def SearchPlace.access : SearchPlace → Except Errno Str
  | .list path => (pathAccess w.toProbes file path).map Prod.snd
  | .cache => w.cached file bufsiz

/-- The steps of the search, one after the other: -1 and `ENOENT`, and a length of 0, go on. -/
def tryPlaces : List SearchPlace → Except Errno Str
  | [] => .error .ENOENT
  | p :: ps =>
    match p.access w file bufsiz with
    | .error .ENOENT => tryPlaces ps
    | .error errno => .error errno
    | .ok buf => if buf = [] then tryPlaces ps else .ok buf

def searchPlaces (execRpath rpath ldLibraryPath runpath deflib : Option Str) (flags1 : Word) : List SearchPlace :=
  (if runpath.isNone then [.list rpath, .list execRpath] else []) ++
    (if ldLibraryPath.isSome ∧ w.secure = false then [.list ldLibraryPath] else []) ++
    (if runpath.isSome then [.list runpath] else []) ++
    [.cache] ++
    (if nodeflib flags1 = false ∧ deflib.isSome then [.list deflib] else [])

def ldsoAccessCached (execRpath rpath ldLibraryPath runpath deflib : Option Str) (flags1 : Word) : Except Errno Str :=
  if '/' ∈ file then .ok (strncpy file bufsiz)
  else tryPlaces w file bufsiz (searchPlaces w execRpath rpath ldLibraryPath runpath deflib flags1)

/-! ## What is searched for -/

/-- A file by the name of the soname: in a directory, or the one that the cache tells. -/
inductive Candidate where
  | dir (d : Str)
  | cached (s : Str)

def Candidate.host : Candidate → Except Errno Str
  | .dir d => w.resolution (dirFile file d)
  | .cached s => .ok s

/-- The first candidate of a place that exists. No file has the empty name. -/
def SearchPlace.candidate (p : SearchPlace) : Option Candidate :=
  if file = [] then none
  else
    match p with
    | .list path => ((path.elim [] dirs).find? (hasFile w.toProbes file)).map .dir
    | .cache => ((w.cached file bufsiz).toOption.filter w.there).map .cached

def firstCandidate (ps : List SearchPlace) : Option Candidate := ps.findSome? (·.candidate w file bufsiz)

/-- The search ends with the first candidate, and with `ENOENT` where there is none. -/
def FindsFirst (ps : List SearchPlace) (r : Except Errno Str) : Prop :=
  (∀ c, firstCandidate w file bufsiz ps = some c → ∃ s, c.host w file = .ok s ∧ r = .ok s) ∧
    (firstCandidate w file bufsiz ps = none → r = .error .ENOENT)

/-! ## What stops the search -/

/-- The directories of a list that are probed: of a list that is longer than `PATH_MAX`, not those that are too. -/
def probed (path : Str) : List Str := (dirs path).filter fun d => d.length < strnlen path (pathMax - 1) + 1

/-- A cache of the new format without an entry of the name. Of the empty name an entry may be empty, with nothing in front of it. -/
def CacheSilent (f : Bytes) : Prop :=
  let base := addrNew w.endian f
  slice f base cacheMagicVersionNew.length = cacheMagicVersionNew ∧
    ((∀ j < word w.endian f (base + cacheNewNlibs), basename (cachePath w.endian f base j) ≠ file) ∨
      (file = [] ∧ 0 < bufsiz ∧ (w.root = [] ∨ w.root = ['/']) ∧ ∃ j < word w.endian f (base + cacheNewNlibs),
        cachePath w.endian f base j = [] ∧ ∀ k < j, basename (cachePath w.endian f base k) ≠ []))

/-- A place without a candidate lets the search go on: no directory of the list is inaccessible, and the last one is none that is
no directory; the cache is missing, or has no such name. -/
def SearchPlace.Passed : SearchPlace → Prop
  | .list none => True
  | .list (some path) => file = [] ∨ (file.length ≤ nameMax ∧
      (∀ d ∈ probed path, w.access (dirFile file d) = some .ENOENT ∨ w.access (dirFile file d) = some .ENOTDIR) ∧
      ((probed path).map fun d => w.access (dirFile file d)).getLastD (some .ENOENT) = some .ENOENT)
  | .cache => w.cacheFile = .error .ENOENT ∨ ∃ f, w.cacheFile = .ok f ∧ CacheSilent w file bufsiz f

def SearchPlace.Reached : SearchPlace → Prop
  | .list none => True
  | .list (some path) => file.length ≤ nameMax ∧
      ∃ d, Hit w.toProbes file (probed path) d ∧ ∃ s, s ≠ [] ∧ w.resolution (dirFile file d) = .ok s
  | .cache => True

def Clear : List SearchPlace → Prop
  | [] => True
  | p :: ps => if (p.candidate w file bufsiz).isSome then p.Reached w file else p.Passed w file bufsiz ∧ Clear ps

end

/-! ## A place -/

variable {w : SearchHost} {file : Str} {bufsiz : Nat} {path d s : Str} {p : SearchPlace} {ps : List SearchPlace} {c : Candidate}

theorem accessLoop_filter (q : Probes) (file : Str) (l : Nat) (ds : List Str) (e : Errno) (seen : Bool) :
    accessLoop q file l (ds.filter (·.length < l)) e seen = accessLoop q file l ds e seen := by
  induction ds generalizing e seen with
  | nil => rfl
  | cons d ds ih =>
    by_cases hd : d.length < l
    · rw [List.filter_cons_of_pos (by simpa using hd), accessLoop_skip hd, accessLoop_skip hd]
      simp only [ih]
    · rw [List.filter_cons_of_neg (by simpa using hd), ih, accessLoop, if_pos (Nat.le_of_not_lt hd)]

theorem pathAccess_probed (hf : file ≠ []) (hlen : file.length ≤ nameMax) (q : Probes) (path : Str) : pathAccess q file (some path) =
    accessLoop q file (strnlen path (pathMax - 1) + 1) (probed path) .ENOENT false := by
  rw [pathAccess, if_neg hf]
  show (if nameMax < file.length then _ else _) = _
  rw [if_neg (Nat.not_lt_of_le hlen), probed, accessLoop_filter]

theorem length_lt_of_mem_probed (h : d ∈ probed path) : d.length < strnlen path (pathMax - 1) + 1 := by
  simpa using (List.mem_filter.mp h).2

theorem find_filter {α : Type} (p q : α → Bool) (l : List α) (h : ∀ a ∈ l, q a = true → p a = true) : (l.filter p).find? q = l.find? q := by
  induction l with
  | nil => rfl
  | cons a l ih =>
    obtain ⟨ha, hl⟩ := List.forall_mem_cons.mp h
    by_cases hp : p a = true
    · rw [List.filter_cons_of_pos hp, List.find?_cons, List.find?_cons, ih hl]
    · rw [List.filter_cons_of_neg hp, List.find?_cons_of_neg fun hq => hp (ha hq), ih hl]

theorem length_lt_dirFile (file d : Str) : d.length < (dirFile file d).length ∨ d.length = 0 := by
  unfold dirFile
  split
  · rename_i hd
    exact .inr (by rw [hd]; rfl)
  · rw [List.length_append, List.length_cons]
    exact .inl (by omega)

theorem find_probed (w : SearchHost) (file path : Str) :
    (probed path).find? (hasFile w.toProbes file) = (dirs path).find? (hasFile w.toProbes file) := by
  refine find_filter _ _ _ fun d hd hhas => ?_
  have hshort := w.short _ (Option.isNone_iff_eq_none.mp hhas)
  have hle := length_le_of_mem_dirs hd
  have hdir := length_lt_dirFile file d
  have hmax : pathMax = 4096 := rfl
  unfold strnlen
  rw [decide_eq_true_eq]
  omega

theorem Hit.find {q : Probes} {ds : List Str} (h : Hit q file ds d) : ds.find? (hasFile q file) = some d := by
  obtain ⟨before, after, rfl, hbefore, hd⟩ := h
  refine List.find?_eq_some_iff_append.mpr ⟨hd, before, after, rfl, fun x hx => ?_⟩
  rw [Bool.not_eq_true']
  exact Bool.eq_false_iff.mpr fun hhas => not_soft_of_hasFile hhas (hbefore x hx)

/-- The list is searched up to a hit, or it gives an error; which is `ENOENT` for the lists that pass. -/
theorem list_access (w : SearchHost) (bufsiz : Nat) (hf : file ≠ []) (hlen : file.length ≤ nameMax) (path : Str) :
    (∃ d, Hit w.toProbes file (probed path) d ∧ (SearchPlace.list (some path)).access w file bufsiz = w.resolution (dirFile file d)) ∨
    (∀ d, ¬ Hit w.toProbes file (probed path) d) ∧ ∃ e, (SearchPlace.list (some path)).access w file bufsiz = .error e ∧
      (e = .ENOENT ↔ (SearchPlace.list (some path)).Passed w file bufsiz) := by
  have haccess : (SearchPlace.list (some path)).access w file bufsiz =
      (accessLoop w.toProbes file (strnlen path (pathMax - 1) + 1) (probed path) .ENOENT false).map Prod.snd := by
    rw [← pathAccess_probed hf hlen]
    rfl
  have hshort : ∀ x ∈ probed path, x.length < strnlen path (pathMax - 1) + 1 := fun _ => length_lt_of_mem_probed
  rw [haccess]
  by_cases hhit : ∃ d, Hit w.toProbes file (probed path) d
  · obtain ⟨d, hd⟩ := hhit
    refine .inl ⟨d, hd, ?_⟩
    rw [accessLoop_hit hshort hd]
    cases w.resolution (dirFile file d) with
    | error e => rfl
    | ok buf => rfl
  · obtain ⟨e, he, hiff⟩ := accessLoop_no_hit hshort (not_exists.mp hhit) .ENOENT false
    refine .inr ⟨not_exists.mp hhit, e, by rw [he]; rfl, hiff.trans ⟨fun h => .inr ⟨hlen, h.2⟩, fun h => ⟨rfl, ?_⟩⟩⟩
    exact (h.resolve_left hf).2

/-! ## The cache -/

theorem snprintf_eq {t : Str} (h : snprintf t bufsiz = .ok s) : s = t := by
  unfold snprintf at h
  split at h
  · exact (Except.ok.inj h).symm
  · cases h

theorem cacheLoop_ok {host : Endian} {f : Bytes} {root : Str} {base num i : Nat} (h : cacheLoop host f root file bufsiz base num i = .ok s) :
    ∃ path, basename path = file ∧ s = (if streq root ['/'] then [] else root) ++ path := by
  induction num generalizing i with
  | zero => cases h
  | succ num ih =>
    rw [cacheLoop] at h
    by_cases hname : streq file (basename (cachePath host f base i)) = true
    · refine ⟨cachePath host f base i, ((streq_iff _ _).mp hname).symm, ?_⟩
      exact snprintf_eq ((if_pos hname).symm.trans h)
    · exact ih ((if_neg hname).symm.trans h)

theorem cached_ne_nil (hf : file ≠ []) (h : w.cached file bufsiz = .ok s) : s ≠ [] := by
  rintro rfl
  unfold SearchHost.cached at h
  split at h
  · cases h
  · unfold ldsoCache at h
    simp only at h
    split at h
    · cases h
    · obtain ⟨path, hname, hs⟩ := cacheLoop_ok h
      rw [(List.append_eq_nil_iff.mp hs.symm).2] at hname
      exact hf hname.symm

theorem snprintf_ne_enoent (t : Str) : snprintf t bufsiz ≠ .error .ENOENT := by
  unfold snprintf
  split <;> exact fun h => by cases h

theorem cacheLoop_enoent_iff {host : Endian} {f : Bytes} {root : Str} {base num i : Nat} :
    cacheLoop host f root file bufsiz base num i = .error .ENOENT ↔ ∀ j, i ≤ j → j < i + num → basename (cachePath host f base j) ≠ file := by
  induction num generalizing i with
  | zero => exact ⟨fun _ j hj hlt => absurd hlt (Nat.not_lt_of_le hj), fun _ => rfl⟩
  | succ num ih =>
    rw [cacheLoop]
    by_cases hname : streq file (basename (cachePath host f base i)) = true
    · have he : file = basename (cachePath host f base i) := (streq_iff _ _).mp hname
      refine iff_of_false (fun h => ?_) fun h => h i (Nat.le_refl i) (by omega) he.symm
      exact snprintf_ne_enoent _ ((if_pos hname).symm.trans h)
    · refine (iff_of_eq (congrArg (· = _) (if_neg hname))).trans (ih.trans ⟨fun h j hj hlt => ?_, fun h j hj hlt => h j (by omega) (by omega)⟩)
      by_cases hij : i = j
      · rw [← hij]
        exact fun he => hname ((streq_iff _ _).mpr he.symm)
      · exact h j (by omega) (by omega)

theorem snprintf_nil_iff {t : Str} : snprintf t bufsiz = .ok [] ↔ t = [] ∧ 0 < bufsiz := by
  unfold snprintf
  constructor
  · intro h
    split at h
    · rename_i hlt
      cases h
      exact ⟨rfl, hlt⟩
    · cases h
  · intro h
    rw [h.1]
    exact if_pos h.2

theorem cacheLoop_nil_iff {host : Endian} {f : Bytes} {root : Str} {base num i : Nat} :
    cacheLoop host f root file bufsiz base num i = .ok [] ↔ file = [] ∧ 0 < bufsiz ∧ (root = [] ∨ root = ['/']) ∧
      ∃ j, i ≤ j ∧ j < i + num ∧ cachePath host f base j = [] ∧ ∀ k, i ≤ k → k < j → basename (cachePath host f base k) ≠ [] := by
  have hroot : (if streq root ['/'] then [] else root) = [] ↔ root = [] ∨ root = ['/'] := by
    by_cases h : root = ['/']
    · rw [h, if_pos ((streq_iff _ _).mpr rfl)]
      exact iff_of_true rfl (.inr rfl)
    · rw [streq_false h, if_neg (by decide)]
      exact (or_iff_left h).symm
  induction num generalizing i with
  | zero =>
    refine iff_of_false (fun h => by cases h) fun h => ?_
    obtain ⟨-, -, -, j, hj, hlt, -⟩ := h
    exact absurd hlt (Nat.not_lt_of_le hj)
  | succ num ih =>
    rw [cacheLoop]
    by_cases hname : streq file (basename (cachePath host f base i)) = true
    · have he : file = basename (cachePath host f base i) := (streq_iff _ _).mp hname
      refine (iff_of_eq (congrArg (· = _) (if_pos hname))).trans ?_
      rw [snprintf_nil_iff, List.append_eq_nil_iff, hroot]
      constructor
      · intro h
        obtain ⟨⟨hr, hp⟩, hbuf⟩ := h
        rw [hp] at he
        exact ⟨he, hbuf, hr, i, Nat.le_refl i, by omega, hp, fun k hk hlt => absurd hlt (Nat.not_lt_of_le hk)⟩
      · intro h
        obtain ⟨hf, hbuf, hr, j, hj, -, hp, hfirst⟩ := h
        obtain rfl | hlt := Nat.eq_or_lt_of_le hj
        · exact ⟨⟨hr, hp⟩, hbuf⟩
        · exact absurd (he.symm.trans hf) (hfirst i (Nat.le_refl i) hlt)
    · refine (iff_of_eq (congrArg (· = _) (if_neg hname))).trans (ih.trans ?_)
      have hne : file = [] → basename (cachePath host f base i) ≠ [] := fun hf he => hname ((streq_iff _ _).mpr (hf.trans he.symm))
      constructor
      · intro h
        obtain ⟨hf, hbuf, hr, j, hj, hlt, hp, hfirst⟩ := h
        refine ⟨hf, hbuf, hr, j, by omega, by omega, hp, fun k hk hkj => ?_⟩
        obtain rfl | hik := Nat.eq_or_lt_of_le hk
        · exact hne hf
        · exact hfirst k hik hkj
      · intro h
        obtain ⟨hf, hbuf, hr, j, hj, hlt, hp, hfirst⟩ := h
        obtain rfl | hij := Nat.eq_or_lt_of_le hj
        · exact absurd (by rw [hp]; rfl) (hne hf)
        · exact ⟨hf, hbuf, hr, j, hij, by omega, hp, fun k hk => hfirst k (by omega)⟩

/-- The cache lets the search go on when the file is missing, or is silent. -/
theorem cached_passes_iff : (w.cached file bufsiz = .error .ENOENT ∨ w.cached file bufsiz = .ok []) ↔
    SearchPlace.Passed w file bufsiz .cache := by
  unfold SearchPlace.Passed SearchHost.cached
  cases hf : w.cacheFile with
  | error e => simp
  | ok f =>
    unfold ldsoCache CacheSilent
    simp only
    by_cases hmagic : slice f (addrNew w.endian f) cacheMagicVersionNew.length = cacheMagicVersionNew
    · rw [if_neg (not_not.mpr hmagic), cacheLoop_enoent_iff, cacheLoop_nil_iff]
      simp [hmagic]
    · rw [if_pos hmagic]
      simp [hmagic]

/-! ## One step -/

theorem tryPlaces_pass (h : p.access w file bufsiz = .error .ENOENT ∨ p.access w file bufsiz = .ok []) :
    tryPlaces w file bufsiz (p :: ps) = tryPlaces w file bufsiz ps := by
  rcases h with h | h
  · rw [tryPlaces, h]
  · rw [tryPlaces, h]
    exact if_pos rfl

theorem tryPlaces_error {e : Errno} (he : e ≠ .ENOENT) (h : p.access w file bufsiz = .error e) :
    tryPlaces w file bufsiz (p :: ps) = .error e := by
  rw [tryPlaces, h]
  cases e <;> first | rfl | exact absurd rfl he

theorem tryPlaces_ok (hs : s ≠ []) (h : p.access w file bufsiz = .ok s) : tryPlaces w file bufsiz (p :: ps) = .ok s := by
  rw [tryPlaces, h]
  exact if_neg hs

theorem tryPlaces_ne_nil (ps : List SearchPlace) : tryPlaces w file bufsiz ps ≠ .ok [] := by
  induction ps with
  | nil => exact fun h => by cases h
  | cons p ps ih =>
    cases ha : p.access w file bufsiz with
    | error e =>
      by_cases he : e = .ENOENT
      · rw [tryPlaces_pass (.inl (he ▸ ha))]
        exact ih
      · rw [tryPlaces_error he ha]
        exact fun h => by cases h
    | ok s =>
      by_cases hs : s = []
      · rw [tryPlaces_pass (.inr (hs ▸ ha))]
        exact ih
      · rw [tryPlaces_ok hs ha]
        exact fun h => hs (Except.ok.inj h)

/-- The ends of a place that are wrong: an error that stops the search, or a path that is not there. -/
def SearchPlace.Stops (w : SearchHost) (file : Str) (bufsiz : Nat) (p : SearchPlace) : Prop :=
  (∃ e, e ≠ .ENOENT ∧ p.access w file bufsiz = .error e) ∨
    ∃ s, s ≠ [] ∧ p.access w file bufsiz = .ok s ∧ (file = [] ∨ w.there s = false)

theorem candidate_empty (p : SearchPlace) : p.candidate w [] bufsiz = none := if_pos rfl

theorem candidate_ne_nil (h : p.candidate w file bufsiz = some c) : file ≠ [] := by
  rintro rfl
  rw [candidate_empty] at h
  cases h

theorem candidate_list (hf : file ≠ []) (path : Str) : (SearchPlace.list (some path)).candidate w file bufsiz =
    ((probed path).find? (hasFile w.toProbes file)).map .dir := by
  rw [SearchPlace.candidate, if_neg hf, find_probed]
  rfl

theorem there_of_candidate (h : p.candidate w file bufsiz = some c) (hs : c.host w file = .ok s) : w.there s = true := by
  have hf := candidate_ne_nil h
  cases p with
  | list path =>
    rw [SearchPlace.candidate, if_neg hf] at h
    obtain ⟨d, hd, rfl⟩ := Option.map_eq_some_iff.mp h
    have hhas : hasFile w.toProbes file d = true := List.find?_some hd
    exact w.reachable _ _ (Option.isNone_iff_eq_none.mp hhas) hs
  | cache =>
    rw [SearchPlace.candidate, if_neg hf] at h
    obtain ⟨t, ht, rfl⟩ := Option.map_eq_some_iff.mp h
    rw [← Except.ok.inj hs]
    exact (Option.filter_eq_some_iff.mp ht).2

theorem access_of_reached (h : p.candidate w file bufsiz = some c) (hr : p.Reached w file) :
    ∃ s, s ≠ [] ∧ c.host w file = .ok s ∧ p.access w file bufsiz = .ok s := by
  have hf := candidate_ne_nil h
  cases p with
  | list path =>
    cases path with
    | none =>
      rw [SearchPlace.candidate, if_neg hf] at h
      cases h
    | some path =>
      obtain ⟨hlen, d, hd, s, hs, hres⟩ := hr
      rw [candidate_list hf, hd.find] at h
      obtain rfl := Option.some.inj h
      refine ⟨s, hs, hres, ?_⟩
      rcases list_access w bufsiz hf hlen path with ⟨d', hd', haccess⟩ | ⟨hno, -⟩
      · rw [haccess, ← hd.unique hd', hres]
      · exact absurd hd (hno d)
  | cache =>
    rw [SearchPlace.candidate, if_neg hf] at h
    obtain ⟨t, ht, rfl⟩ := Option.map_eq_some_iff.mp h
    have hcached : w.cached file bufsiz = .ok t := by
      have hopt := (Option.filter_eq_some_iff.mp ht).1
      cases hc : w.cached file bufsiz with
      | error e =>
        rw [hc] at hopt
        cases hopt
      | ok u =>
        rw [hc] at hopt
        rw [Option.some.inj hopt]
    exact ⟨t, cached_ne_nil hf hcached, rfl, hcached⟩

theorem list_long (hf : file ≠ []) (hlen : ¬ file.length ≤ nameMax) (path : Str) :
    (SearchPlace.list (some path)).access w file bufsiz = .error .ENAMETOOLONG := by
  rw [SearchPlace.access, pathAccess, if_neg hf]
  show Except.map Prod.snd (if nameMax < file.length then _ else _) = _
  rw [if_pos (Nat.lt_of_not_le hlen)]
  rfl

/-- A candidate that is not reached is hidden by an error, or does not resolve. -/
theorem access_of_not_reached (h : p.candidate w file bufsiz = some c) (hr : ¬ p.Reached w file) :
    (∃ e, e ≠ .ENOENT ∧ p.access w file bufsiz = .error e) ∨ ∀ s, c.host w file = .ok s → s = [] := by
  have hf := candidate_ne_nil h
  cases p with
  | list path =>
    cases path with
    | none => exact absurd trivial hr
    | some path =>
      by_cases hlen : file.length ≤ nameMax
      · rw [candidate_list hf] at h
        obtain ⟨d, hd, rfl⟩ := Option.map_eq_some_iff.mp h
        rcases list_access w bufsiz hf hlen path with ⟨d', hd', -⟩ | ⟨-, e, haccess, hiff⟩
        · obtain rfl : d = d' := Option.some.inj (hd.symm.trans hd'.find)
          exact .inr fun s hs => by_contra fun hne => hr ⟨hlen, d, hd', s, hne, hs⟩
        · refine .inl ⟨e, fun he => ?_, haccess⟩
          -- the directory that has the file is one of those that would be missing
          obtain ⟨-, hall, -⟩ := (hiff.mp he).resolve_left hf
          have hhas : hasFile w.toProbes file d = true := List.find?_some hd
          refine not_soft_of_hasFile hhas ?_
          rcases hall d (List.mem_of_find?_eq_some hd) with hp | hp
          · exact .inl hp
          · exact .inr (.inl hp)
      · exact .inl ⟨.ENAMETOOLONG, by decide, list_long hf hlen path⟩
  | cache => exact absurd trivial hr

theorem pathAccess_empty (q : Probes) (path : Option Str) : pathAccess q [] path = .error .ENOENT := if_pos rfl

theorem access_of_passed (hp : p.Passed w file bufsiz) (h : p.candidate w file bufsiz = none) :
    p.access w file bufsiz = .error .ENOENT ∨ p.access w file bufsiz = .ok [] := by
  cases p with
  | list path =>
    by_cases hf : file = []
    · rw [SearchPlace.access, hf, pathAccess_empty]
      exact .inl rfl
    cases path with
    | none =>
      rw [SearchPlace.access, pathAccess, if_neg hf]
      exact .inl rfl
    | some path =>
      have hlen := (hp.resolve_left hf).1
      rcases list_access w bufsiz hf hlen path with ⟨d, hd, -⟩ | ⟨-, e, haccess, hiff⟩
      · rw [candidate_list hf, hd.find] at h
        cases h
      · rw [haccess, hiff.mpr hp]
        exact .inl rfl
  | cache => exact cached_passes_iff.mpr hp

theorem stops_of_not_passed (h : p.candidate w file bufsiz = none) (hp : ¬ p.Passed w file bufsiz) : p.Stops w file bufsiz := by
  cases p with
  | list path =>
    cases path with
    | none => exact absurd trivial hp
    | some path =>
      have hf : file ≠ [] := fun hf => hp (.inl hf)
      by_cases hlen : file.length ≤ nameMax
      · rcases list_access w bufsiz hf hlen path with ⟨d, hd, -⟩ | ⟨-, e, haccess, hiff⟩
        · rw [candidate_list hf, hd.find] at h
          cases h
        · exact .inl ⟨e, fun he => hp (hiff.mp he), haccess⟩
      · exact .inl ⟨.ENAMETOOLONG, by decide, list_long hf hlen path⟩
  | cache =>
    cases hc : w.cached file bufsiz with
    | error e => exact .inl ⟨e, fun he => hp (cached_passes_iff.mp (.inl (he ▸ hc))), hc⟩
    | ok s =>
      refine .inr ⟨s, fun hs => hp (cached_passes_iff.mp (.inr (hs ▸ hc))), hc, ?_⟩
      by_cases hf : file = []
      · exact .inl hf
      · rw [SearchPlace.candidate, if_neg hf] at h
        simp only [hc] at h
        refine .inr (Bool.eq_false_iff.mpr fun hthere => ?_)
        rw [Except.toOption, Option.filter_some_pos hthere] at h
        cases h

/-! ## The search -/

theorem firstCandidate_cons_some (ps : List SearchPlace) (h : p.candidate w file bufsiz = some c) : firstCandidate w file bufsiz (p :: ps) = some c := by
  rw [firstCandidate, List.findSome?_cons, h]

theorem firstCandidate_cons_none (ps : List SearchPlace) (h : p.candidate w file bufsiz = none) :
    firstCandidate w file bufsiz (p :: ps) = firstCandidate w file bufsiz ps := by
  rw [firstCandidate, List.findSome?_cons, h]
  rfl

theorem there_of_first (h : firstCandidate w file bufsiz ps = some c) (hs : c.host w file = .ok s) : file ≠ [] ∧ w.there s = true := by
  obtain ⟨p, -, hp⟩ := List.exists_of_findSome?_eq_some h
  exact ⟨candidate_ne_nil hp, there_of_candidate hp hs⟩

theorem SearchPlace.Stops.not_first (h : p.Stops w file bufsiz) : ¬ FindsFirst w file bufsiz ps (tryPlaces w file bufsiz (p :: ps)) := by
  rintro ⟨hsome, hnone⟩
  rcases h with ⟨e, he, haccess⟩ | ⟨s, hs, haccess, hwrong⟩
  · rw [tryPlaces_error he haccess] at hsome hnone
    cases hc : firstCandidate w file bufsiz ps with
    | none => exact he (Except.error.inj (hnone hc))
    | some c =>
      obtain ⟨t, -, ht⟩ := hsome c hc
      cases ht
  · rw [tryPlaces_ok hs haccess] at hsome hnone
    cases hc : firstCandidate w file bufsiz ps with
    | none => cases hnone hc
    | some c =>
      obtain ⟨t, hhost, ht⟩ := hsome c hc
      obtain ⟨hf, hthere⟩ := there_of_first hc hhost
      rcases hwrong with h0 | h0
      · exact hf h0
      · rw [← Except.ok.inj ht, h0] at hthere
        cases hthere

theorem tryPlaces_iff (ps : List SearchPlace) : FindsFirst w file bufsiz ps (tryPlaces w file bufsiz ps) ↔ Clear w file bufsiz ps := by
  induction ps with
  | nil => exact ⟨fun _ => trivial, fun _ => ⟨fun c hc => absurd hc (by simp [firstCandidate]), fun _ => rfl⟩⟩
  | cons p ps ih =>
    rw [Clear]
    cases hc : p.candidate w file bufsiz with
    | some c =>
      have hfirst := firstCandidate_cons_some ps hc
      simp only [Option.isSome_some, if_true]
      constructor
      · intro h
        obtain ⟨s, hhost, hr⟩ := h.1 c hfirst
        by_contra hno
        rcases access_of_not_reached hc hno with ⟨e, he, haccess⟩ | hnil
        · rw [tryPlaces_error he haccess] at hr
          cases hr
        · rw [hnil s hhost] at hr
          exact tryPlaces_ne_nil _ hr
      · intro hr
        obtain ⟨s, hs, hhost, haccess⟩ := access_of_reached hc hr
        rw [tryPlaces_ok hs haccess]
        refine ⟨fun c' hc' => ?_, fun hnone => ?_⟩
        · rw [hfirst] at hc'
          exact ⟨s, Option.some.inj hc' ▸ hhost, rfl⟩
        · rw [hfirst] at hnone
          cases hnone
    | none =>
      have hfirst := firstCandidate_cons_none ps hc
      have hsame : ∀ r, FindsFirst w file bufsiz (p :: ps) r ↔ FindsFirst w file bufsiz ps r := fun r => by
        rw [FindsFirst, FindsFirst, hfirst]
      rw [if_neg (by decide), hsame]
      by_cases hp : p.Passed w file bufsiz
      · rw [tryPlaces_pass (access_of_passed hp hc), ih]
        exact (and_iff_right hp).symm
      · exact ⟨fun h => absurd h (stops_of_not_passed hc hp).not_first, fun h => absurd h.1 hp⟩

/-- The search ends with the first candidate of the places in their order exactly when no place in front of it stops it. -/
theorem ldsoAccessCached_iff (w : SearchHost) (file : Str) (bufsiz : Nat) (hslash : '/' ∉ file)
    (execRpath rpath ldLibraryPath runpath deflib : Option Str) (flags1 : Word) :
    FindsFirst w file bufsiz (searchPlaces w execRpath rpath ldLibraryPath runpath deflib flags1)
        (ldsoAccessCached w file bufsiz execRpath rpath ldLibraryPath runpath deflib flags1) ↔
      Clear w file bufsiz (searchPlaces w execRpath rpath ldLibraryPath runpath deflib flags1) := by
  rw [ldsoAccessCached, if_neg hslash]
  exact tryPlaces_iff _

def oneLibrary : SearchHost where
  access path := if path = "/lib/l".toList then none else if path = "/f/l".toList then some .ENOTDIR else some .ENOENT
  resolution path := .ok path
  secure := false
  cacheFile := .error .ENOENT
  endian := .little
  root := ['/']
  there path := path = "/lib/l".toList
  reachable path s h hs := by
    rw [← Except.ok.inj hs]
    by_cases hp : path = "/lib/l".toList
    · exact decide_eq_true hp
    · rw [if_neg hp] at h
      split at h
      · cases h
      · cases h
  short path h := by
    by_cases hp : path = "/lib/l".toList
    · rw [hp]
      decide
    · rw [if_neg hp] at h
      split at h
      · cases h
      · cases h

/-- With the directories `/a` and `/lib`, the search comes to the library. -/
theorem ldsoAccessCached_lib : FindsFirst oneLibrary "l".toList pathMax
    (searchPlaces oneLibrary none none (some "/a".toList) none (some "/lib".toList) 0)
    (ldsoAccessCached oneLibrary "l".toList pathMax none none (some "/a".toList) none (some "/lib".toList) 0) := by
  refine (ldsoAccessCached_iff oneLibrary "l".toList pathMax (by decide) none none (some "/a".toList) none (some "/lib".toList) 0).mpr ?_
  show True ∧ True ∧ SearchPlace.Passed oneLibrary "l".toList pathMax (.list (some "/a".toList)) ∧
    SearchPlace.Passed oneLibrary "l".toList pathMax .cache ∧ SearchPlace.Reached oneLibrary "l".toList (.list (some "/lib".toList))
  have hprobed : probed "/lib".toList = ["/lib".toList] := by decide
  refine ⟨trivial, trivial, .inr ⟨by decide, ?_, by decide⟩, .inl rfl, by decide, "/lib".toList, ?_, "/lib/l".toList, by decide, rfl⟩
  · rw [show probed "/a".toList = ["/a".toList] by decide]
    exact List.forall_mem_singleton.mpr (.inl (by decide))
  · rw [hprobed]
    exact ⟨[], [], rfl, fun x hx => absurd hx List.not_mem_nil, by decide⟩

/-- The file `/f` in `LD_LIBRARY_PATH` hides the library in the default directory. -/
theorem ldsoAccessCached_hidden :
    ldsoAccessCached oneLibrary "l".toList pathMax none none (some "/f".toList) none (some "/lib".toList) 0 = .error .ENOTDIR ∧
    ¬ FindsFirst oneLibrary "l".toList pathMax
      (searchPlaces oneLibrary none none (some "/f".toList) none (some "/lib".toList) 0)
      (ldsoAccessCached oneLibrary "l".toList pathMax none none (some "/f".toList) none (some "/lib".toList) 0) := by
  have herr : ldsoAccessCached oneLibrary "l".toList pathMax none none (some "/f".toList) none (some "/lib".toList) 0 =
      .error .ENOTDIR := by decide
  refine ⟨herr, fun h => ?_⟩
  obtain ⟨s, -, hs⟩ := h.1 (.dir "/lib".toList) (by rfl)
  rw [herr] at hs
  cases hs

end Iamroot
