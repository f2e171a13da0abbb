import Mathlib.Algebra.Order.BigOperators.Group.List
import Iamroot.ElfLists

/-!
# Where a library is searched for

`__ldso_access` probes the directories of several lists, one list after the other.
`__fld_lib_path` writes the same lists one after the other into the argument of
`--library-path`, for the loader to probe. It starts with the list that is probed
last, so the two differ when several lists have the library.
-/

namespace Iamroot

open ByteOrder

def nodeflib (flags1 : Word) : Bool := flags1 &&& 0x800 ≠ 0

/-- `__getld_library_path`: the value of `LD_LIBRARY_PATH` without what the library put
before it, which `ld_library_path` tells. -/
def getldLibraryPath (curr prev : Option Str) (bufsiz : Nat) : Str :=
  match curr, prev with
  | none, _ => []
  | some curr, none => strncpy curr bufsiz
  | some curr, some prev =>
    if streq curr prev then []
    else if prev <+: curr then
      strncpy (curr.drop (strlen prev + if curr[strlen prev]? = some ':' then 1 else 0)) bufsiz
    else strncpy curr bufsiz

/-- What the readers of a file give when none of them fails, and what the process has. -/
structure LibSources where
  rpath : Str
  runpath : Str
  /-- `__getdeflib` of the file. -/
  deflib : Str
  flags1 : Word
  /-- `LD_LIBRARY_PATH`. -/
  curr : Option Str
  /-- `ld_library_path`. -/
  prev : Option Str
  /-- `__secure_execution_mode`. -/
  secure : Bool
  deriving DecidableEq

/-! ## The readers -/

def flagsCallback (host : Endian) : (c : Class) → Word → Arg c → Word × Int
  | .elf32, _, .int v => (v, 0)
  | .elf64, _, .int v => (if host = .big then (v >>> 32).setWidth 32 else v.setWidth 32, 0)
  | _, s, .str _ => (s, -1)

def felfFlags1 (host : Endian) (f : Bytes) : Option Word :=
  let r := elfIterateSharedObject host f 0x6ffffffb (flagsCallback host) 0
  if r.2 = -1 then none else some r.1

def ListRead.toOption : ListRead → Option Str
  | .done list => some list
  | .fail | .fault => none

def LibSources.ofFile (host : Endian) (f : Bytes) (deflib : Str) (curr prev : Option Str) (secure : Bool) :
    Option LibSources := do
  let flags1 ← felfFlags1 host f
  let runpath ← (felfRunpath host f).toOption
  let rpath ← (felfRpath host f).toOption
  return { rpath, runpath, deflib, flags1, curr, prev, secure }

/-! ## The list for the loader -/

section
variable (s : LibSources)

def fldLibPath : Except Errno Str := do
  let mut buf : Str := []
  if nodeflib s.flags1 = false then
    buf ← pathStrncat buf (strncpy s.deflib pathMax) pathMax
  if s.runpath ≠ [] then
    buf ← pathStrncat buf s.runpath pathMax
  if s.secure = false then
    buf ← pathStrncat buf (getldLibraryPath s.curr s.prev pathMax) pathMax
  if s.runpath = [] then
    buf ← pathStrncat buf s.rpath pathMax
  return buf

/-! ## The search -/

/-- The lists that `__felf_so_context` finds, those without a character left out. -/
structure SoContext where
  rpath : Option Str
  ldLibraryPath : Option Str
  runpath : Option Str
  deflib : Option Str
  flags1 : Word

def present (l : Str) : Option Str := if l = [] then none else some l

def taken (l : Str) : Nat := if l = [] then 0 else l.length + 1

def felfSoContext : SoContext :=
  let rpath := if s.runpath = [] then s.rpath else []
  let off := taken s.runpath + taken rpath
  let lib := if s.secure then [] else getldLibraryPath s.curr s.prev (pathMax - off)
  { rpath := present rpath
    ldLibraryPath := present lib
    runpath := present s.runpath
    deflib := present (strncpy s.deflib (pathMax - (off + taken lib)))
    flags1 := s.flags1 }

/-- What the host says of a path: the errno of `__faccessat`, and what `path_resolution`
makes of a path that is there. -/
structure Probes where
  access : Str → Option Errno
  resolution : Str → Except Errno Str

variable (q : Probes) (file : Str)

def dirFile (d : Str) : Str := if d = [] then file else d ++ '/' :: file

/-- The loop of `__path_access`. It gives the element along with the resolved path. -/
def accessLoop (l : Nat) : List Str → Errno → Bool → Except Errno (Str × Str)
  | [], errno, seenEacces => .error (if seenEacces then .EACCES else errno)
  | d :: ds, errno, seenEacces =>
    if l ≤ d.length then accessLoop l ds errno seenEacces
    else
      match q.access (dirFile file d) with
      | none => (q.resolution (dirFile file d)).map fun buf => (d, buf)
      | some .EACCES => accessLoop l ds .EACCES true
      | some .ENOENT => accessLoop l ds .ENOENT seenEacces
      | some .ENOTDIR => accessLoop l ds .ENOTDIR seenEacces
      | some errno => .error errno

def pathAccess (path : Option Str) : Except Errno (Str × Str) :=
  if file = [] then .error .ENOENT
  else
    match path with
    | none => .error .ENOENT
    | some path =>
      if nameMax < file.length then .error .ENAMETOOLONG
      else accessLoop q file (strnlen path (pathMax - 1) + 1) (dirs path) .ENOENT false

/-- One step of the search after the other: only `ENOENT` goes on. -/
def tryLists : List (Option Str) → Except Errno (Str × Str)
  | [] => .error .ENOENT
  | l :: ls =>
    match pathAccess q file l with
    | .error .ENOENT => tryLists ls
    | r => r

def ldsoLists (execRpath rpath ldLibraryPath runpath deflib : Option Str) (flags1 : Word) (secure : Bool) :
    List (Option Str) :=
  (if runpath.isNone then [rpath, execRpath] else []) ++
    (if ldLibraryPath.isSome ∧ secure = false then [ldLibraryPath] else []) ++
    (if runpath.isSome then [runpath] else []) ++
    (if nodeflib flags1 = false ∧ deflib.isSome then [deflib] else [])

def ldsoAccess (execRpath rpath ldLibraryPath runpath deflib : Option Str) (flags1 : Word) (secure : Bool) :
    Except Errno (Str × Str) :=
  if '/' ∈ file then .ok ([], strncpy file pathMax)
  else tryLists q file (ldsoLists execRpath rpath ldLibraryPath runpath deflib flags1 secure)

/-- Who searches: the opening of needed objects, the tracing of them, and `__dl_access`, which
hands no `DT_RUNPATH` on. -/
inductive Searcher where
  | needed | trace | dl
  deriving DecidableEq

def Searcher.access (w : Searcher) : Except Errno (Str × Str) :=
  let c := felfSoContext s
  match w with
  | .needed => ldsoAccess q file none c.rpath c.ldLibraryPath c.runpath c.deflib c.flags1 s.secure
  | .trace => ldsoAccess q file c.rpath none c.ldLibraryPath c.runpath c.deflib c.flags1 s.secure
  | .dl => ldsoAccess q file c.rpath none c.ldLibraryPath none c.deflib c.flags1 s.secure

/-! ## The order of the two -/

/-- `RPATH` when there is no `RUNPATH`, `LD_LIBRARY_PATH`, `RUNPATH`, default directories. -/
def searchLists : List Str :=
  (if s.runpath = [] then [s.rpath] else []) ++
    (if s.secure = false then [getldLibraryPath s.curr s.prev pathMax] else []) ++
    (if s.runpath = [] then [] else [s.runpath]) ++
    (if nodeflib s.flags1 = false then [strncpy s.deflib pathMax] else [])

def Searcher.lists : Searcher → List Str
  | .dl => searchLists { s with runpath := [], rpath := if s.runpath = [] then s.rpath else [] }
  | _ => searchLists s

def hasFile (d : Str) : Bool := (q.access (dirFile file d)).isNone

def firstDir (ls : List Str) : Option Str := (ls.flatMap listDirs).find? (hasFile q file)

/-- The list for the loader is built, the directory it leads to is the one where the search
ends, and that is the first of the order. -/
def OneOrder (w : Searcher) : Prop :=
  ∃ list, fldLibPath s = .ok list ∧ (listDirs list).find? (hasFile q file) = (w.access s q file).toOption.map Prod.fst ∧
    firstDir q file (searchLists s) = (w.access s q file).toOption.map Prod.fst

/-- The lists fit one after the other, the colons between them counted. -/
def Room : Nat → List Str → Prop
  | _, [] => True
  | n, l :: ls => n + (if n = 0 then 0 else 1) + l.length < pathMax ∧
      Room (if l = [] then n else n + (if n = 0 then 0 else 1) + l.length) ls

instance Room.decide : (n : Nat) → (ls : List Str) → Decidable (Room n ls)
  | _, [] => isTrue trivial
  | n, l :: ls => have := Room.decide (if l = [] then n else n + (if n = 0 then 0 else 1) + l.length) ls
    inferInstanceAs (Decidable (_ ∧ _))

/-- A probe after which the search goes on in the list. -/
def Soft (errno : Option Errno) : Prop := errno = some .ENOENT ∨ errno = some .ENOTDIR ∨ errno = some .EACCES

def Hit (ds : List Str) (d : Str) : Prop :=
  ∃ before after, ds = before ++ d :: after ∧ (∀ x ∈ before, Soft (q.access (dirFile file x))) ∧ hasFile q file d = true

def Passes (ds : List Str) : Prop :=
  ((∀ d ∈ ds, q.access (dirFile file d) = some .ENOENT ∨ q.access (dirFile file d) = some .ENOTDIR) ∧
      (ds.map fun d => q.access (dirFile file d)).getLastD (some .ENOENT) = some .ENOENT) ∨
    ∃ d, Hit q file ds d ∧ q.resolution (dirFile file d) = .error .ENOENT

def Reaches (ls : List Str) (d : Str) : Prop :=
  ∃ before l after, ls = before ++ l :: after ∧ (∀ l ∈ before, Passes q file (listDirs l)) ∧
    Hit q file (listDirs l) d ∧ (q.resolution (dirFile file d)).isOk = true

end

/-! ## The list that is built -/

def catAll (buf : Str) : List Str → Except Errno Str
  | [] => pure buf
  | l :: ls => do
    let buf ← pathStrncat buf l pathMax
    catAll buf ls

theorem fldLibPath_eq (s : LibSources) : fldLibPath s = catAll [] (searchLists s).reverse := by
  unfold fldLibPath searchLists
  by_cases hf : nodeflib s.flags1 = false <;> by_cases hr : s.runpath = [] <;> by_cases hs : s.secure = false
  all_goals simp [hf, hr, hs, catAll]

theorem length_joined (dst src : Str) : (joined dst src).length =
    if src = [] then dst.length else dst.length + (if dst.length = 0 then 0 else 1) + src.length := by
  unfold joined
  by_cases hs : src = [] <;> by_cases hd : dst = [] <;> simp [hs, hd]
  omega

theorem catAll_iff (ls : List Str) (buf list : Str) :
    catAll buf ls = .ok list ↔ Room buf.length ls ∧ list = ls.foldl joined buf := by
  induction ls generalizing buf with
  | nil => simp [catAll, Room, pure, Except.pure, eq_comm]
  | cons l ls ih =>
    have hroom : l.length + (if buf = [] then 0 else 1) ≤ pathMax - buf.length - 1 ↔
        buf.length + (if buf.length = 0 then 0 else 1) + l.length < pathMax := by
      by_cases hb : buf = []
      · simp [hb, pathMax]; omega
      · simp [hb, pathMax]; omega
    constructor
    · intro h
      cases hc : pathStrncat buf l pathMax with
      | error e => simp [catAll, hc, bind, Except.bind] at h
      | ok s =>
        obtain ⟨hr, rfl⟩ := pathStrncat_iff.mp hc
        have h' : catAll (joined buf l) ls = .ok list := by simpa [catAll, hc, bind, Except.bind] using h
        obtain ⟨hrest, hlist⟩ := (ih _).mp h'
        rw [length_joined] at hrest
        exact ⟨⟨hroom.mp hr, hrest⟩, hlist⟩
    · rintro ⟨⟨hr, hrest⟩, hlist⟩
      have hc : pathStrncat buf l pathMax = .ok (joined buf l) := pathStrncat_iff.mpr ⟨hroom.mpr hr, rfl⟩
      rw [← length_joined] at hrest
      simpa [catAll, hc, bind, Except.bind] using (ih _).mpr ⟨hrest, hlist⟩

theorem listDirs_foldl (ls : List Str) (buf : Str) :
    listDirs (ls.foldl joined buf) = listDirs buf ++ ls.flatMap listDirs := by
  induction ls generalizing buf with
  | nil => simp
  | cons l ls ih => rw [List.foldl_cons, ih, listDirs_joined, List.flatMap_cons, List.append_assoc]

/-- The list is built when its parts fit, and leads to the first directory of the lists from the
last to the first. -/
theorem fldLibPath_iff (s : LibSources) (list : Str) : fldLibPath s = .ok list ↔
    Room 0 (searchLists s).reverse ∧ list = (searchLists s).reverse.foldl joined [] := by
  rw [fldLibPath_eq]
  exact catAll_iff _ _ _

/-! ## The search -/

section
variable {q : Probes} {file : Str}

theorem accessLoop_skip {l : Nat} {d : Str} (hd : d.length < l) (ds : List Str) (e : Errno) (seen : Bool) :
    accessLoop q file l (d :: ds) e seen =
      match q.access (dirFile file d) with
      | none => (q.resolution (dirFile file d)).map fun buf => (d, buf)
      | some .EACCES => accessLoop q file l ds .EACCES true
      | some .ENOENT => accessLoop q file l ds .ENOENT seen
      | some .ENOTDIR => accessLoop q file l ds .ENOTDIR seen
      | some e => .error e := by
  rw [accessLoop, if_neg (Nat.not_le.mpr hd)]

theorem Hit.nil (d : Str) : ¬ Hit q file [] d := by
  rintro ⟨before, after, h, -⟩
  simp at h

theorem hit_cons {x : Str} {ds : List Str} {d : Str} : Hit q file (x :: ds) d ↔
    (x = d ∧ hasFile q file d = true) ∨ Soft (q.access (dirFile file x)) ∧ Hit q file ds d := by
  constructor
  · rintro ⟨before, after, h, hb, hd⟩
    cases before with
    | nil =>
      cases h
      exact Or.inl ⟨rfl, hd⟩
    | cons y before =>
      cases h
      exact Or.inr ⟨hb _ List.mem_cons_self, before, after, rfl, fun z hz => hb z (List.mem_cons_of_mem _ hz), hd⟩
  · rintro (⟨rfl, hd⟩ | ⟨hx, before, after, rfl, hb, hd⟩)
    · exact ⟨[], ds, rfl, by simp, hd⟩
    · refine ⟨x :: before, after, rfl, ?_, hd⟩
      intro z hz
      rcases List.mem_cons.mp hz with rfl | hz
      · exact hx
      · exact hb z hz

theorem not_soft_of_hasFile {d : Str} (h : hasFile q file d = true) : ¬ Soft (q.access (dirFile file d)) := by
  unfold hasFile at h
  rw [Option.isNone_iff_eq_none] at h
  rw [h]
  rintro (h | h | h) <;> cases h

theorem accessLoop_hit {l : Nat} {ds : List Str} {d : Str} (hl : ∀ x ∈ ds, x.length < l) (h : Hit q file ds d)
    (e : Errno) (seen : Bool) :
    accessLoop q file l ds e seen = (q.resolution (dirFile file d)).map fun buf => (d, buf) := by
  induction ds generalizing e seen with
  | nil => exact absurd h (Hit.nil d)
  | cons x ds ih =>
    rw [accessLoop_skip (hl x List.mem_cons_self)]
    have hl' : ∀ y ∈ ds, y.length < l := fun y hy => hl y (List.mem_cons_of_mem _ hy)
    rcases hit_cons.mp h with ⟨rfl, hx⟩ | ⟨hs, h'⟩
    · unfold hasFile at hx
      rw [Option.isNone_iff_eq_none.mp hx]
    · rcases hs with hs | hs | hs
      all_goals
        rw [hs]
        exact ih hl' h' _ _

/-- A list without a hit gives an error, and tells when it is `ENOENT`. -/
theorem accessLoop_no_hit {l : Nat} {ds : List Str} (hl : ∀ x ∈ ds, x.length < l) (h : ∀ d, ¬ Hit q file ds d)
    (e : Errno) (seen : Bool) : ∃ e', accessLoop q file l ds e seen = .error e' ∧
      (e' = .ENOENT ↔ seen = false ∧
        (∀ d ∈ ds, q.access (dirFile file d) = some .ENOENT ∨ q.access (dirFile file d) = some .ENOTDIR) ∧
        (ds.map fun d => q.access (dirFile file d)).getLastD (some e) = some .ENOENT) := by
  induction ds generalizing e seen with
  | nil =>
    refine ⟨_, rfl, ?_⟩
    cases seen <;> simp
  | cons x ds ih =>
    rw [accessLoop_skip (hl x List.mem_cons_self)]
    have hl' : ∀ y ∈ ds, y.length < l := fun y hy => hl y (List.mem_cons_of_mem _ hy)
    cases hx : q.access (dirFile file x) with
    | none => exact absurd (hit_cons.mpr (Or.inl ⟨rfl, by simp [hasFile, hx]⟩)) (h x)
    | some e₁ =>
      have h' : Soft (some e₁) → ∀ d, ¬ Hit q file ds d := fun hs d hd => h d (hit_cons.mpr (Or.inr ⟨hx ▸ hs, hd⟩))
      have hlast : ((x :: ds).map fun d => q.access (dirFile file d)).getLastD (some e) =
          (ds.map fun d => q.access (dirFile file d)).getLastD (some e₁) := by
        rw [List.map_cons, List.getLastD_cons, hx]
      rw [hlast, List.forall_mem_cons, hx]
      by_cases hs : e₁ = .ENOENT ∨ e₁ = .ENOTDIR
      · obtain ⟨e', he', hiff⟩ := ih hl' (h' (by rcases hs with rfl | rfl <;> simp [Soft])) e₁ seen
        refine ⟨e', ?_, ?_⟩
        · rw [← he']
          rcases hs with rfl | rfl <;> rfl
        · rw [hiff]
          have : some e₁ = some Errno.ENOENT ∨ some e₁ = some Errno.ENOTDIR := by simpa using hs
          simp only [this, true_and]
      · have hno : ¬ (some e₁ = some Errno.ENOENT ∨ some e₁ = some Errno.ENOTDIR) := by simpa using hs
        simp only [hno, false_and, and_false, iff_false]
        by_cases ha : e₁ = .EACCES
        · subst ha
          obtain ⟨e', he', hiff⟩ := ih hl' (h' (by simp [Soft])) .EACCES true
          exact ⟨e', he', fun h => by simpa using (hiff.mp h).1⟩
        · refine ⟨e₁, ?_, fun h => hs (Or.inl h)⟩
          cases e₁ <;> first | rfl | simp at hs ha

theorem pathAccess_present {l : Str} (hf : file ≠ []) (hfl : file.length ≤ nameMax) (hl : l.length < pathMax) :
    pathAccess q file (present l) =
      accessLoop q file (if l = [] then 0 else l.length + 1) (listDirs l) .ENOENT false := by
  unfold pathAccess present listDirs
  rw [if_neg hf]
  by_cases h : l = []
  · simp [h, accessLoop]
  · have hmin : strnlen l (pathMax - 1) = l.length := by
      unfold strnlen; omega
    simp [h, Nat.not_lt.mpr hfl, hmin]

theorem length_lt_of_mem_listDirs {l d : Str} (h : d ∈ listDirs l) : d.length < if l = [] then 0 else l.length + 1 := by
  unfold listDirs at h
  split at h
  · cases h
  next hl =>
    rw [if_neg hl]
    exact Nat.lt_succ_of_le (length_le_of_mem_dirs h)

theorem Hit.unique {ds : List Str} {d d' : Str} (h : Hit q file ds d) (h' : Hit q file ds d') : d = d' := by
  induction ds with
  | nil => exact absurd h (Hit.nil d)
  | cons x ds ih =>
    rcases hit_cons.mp h with ⟨rfl, hx⟩ | ⟨hs, h⟩ <;> rcases hit_cons.mp h' with ⟨rfl, hx'⟩ | ⟨hs', h'⟩
    · rfl
    · exact absurd hs' (not_soft_of_hasFile hx)
    · exact absurd hs (not_soft_of_hasFile hx')
    · exact ih h h'

theorem reaches_cons {l : Str} {ls : List Str} {d : Str} : Reaches q file (l :: ls) d ↔
    (Hit q file (listDirs l) d ∧ (q.resolution (dirFile file d)).isOk = true) ∨
      Passes q file (listDirs l) ∧ Reaches q file ls d := by
  constructor
  · rintro ⟨before, m, after, h, hb, hd⟩
    cases before with
    | nil =>
      cases h
      exact Or.inl hd
    | cons x before =>
      cases h
      exact Or.inr ⟨hb _ List.mem_cons_self, before, m, after, rfl, fun z hz => hb z (List.mem_cons_of_mem _ hz), hd⟩
  · rintro (hd | ⟨hp, before, m, after, rfl, hb, hd⟩)
    · exact ⟨[], l, ls, rfl, by simp, hd⟩
    · exact ⟨l :: before, m, after, rfl, List.forall_mem_cons.mpr ⟨hp, hb⟩, hd⟩

section
variable (hf : file ≠ []) (hfl : file.length ≤ nameMax)
include hf hfl

theorem pathAccess_ok {l : Str} (hl : l.length < pathMax) (d : Str) :
    (∃ buf, pathAccess q file (present l) = .ok (d, buf)) ↔
      Hit q file (listDirs l) d ∧ (q.resolution (dirFile file d)).isOk = true := by
  rw [pathAccess_present hf hfl hl]
  by_cases h : ∃ d', Hit q file (listDirs l) d'
  · obtain ⟨d', hd'⟩ := h
    rw [accessLoop_hit (fun _ => length_lt_of_mem_listDirs) hd']
    constructor
    · rintro ⟨buf, hb⟩
      cases hr : q.resolution (dirFile file d') with
      | error e => simp [hr, Except.map] at hb
      | ok b =>
        simp only [hr, Except.map, Except.ok.injEq, Prod.mk.injEq] at hb
        obtain ⟨rfl, -⟩ := hb
        exact ⟨hd', by rw [hr]; rfl⟩
    · rintro ⟨hd, hr⟩
      obtain rfl := hd.unique hd'
      cases hr' : q.resolution (dirFile file d) with
      | error e =>
        rw [hr'] at hr
        cases hr
      | ok b => exact ⟨b, rfl⟩
  · obtain ⟨e, he, -⟩ := accessLoop_no_hit (fun _ => length_lt_of_mem_listDirs) (not_exists.mp h) .ENOENT false
    rw [he]
    exact ⟨fun ⟨_, hb⟩ => (nomatch hb), fun hd => absurd ⟨d, hd.1⟩ h⟩

theorem pathAccess_enoent {l : Str} (hl : l.length < pathMax) :
    pathAccess q file (present l) = .error .ENOENT ↔ Passes q file (listDirs l) := by
  rw [pathAccess_present hf hfl hl]
  unfold Passes
  by_cases h : ∃ d', Hit q file (listDirs l) d'
  · obtain ⟨d, hd⟩ := h
    have hno : ¬ ∀ x ∈ listDirs l, q.access (dirFile file x) = some .ENOENT ∨ q.access (dirFile file x) = some .ENOTDIR := by
      intro hall
      obtain ⟨before, after, hl, -, hhas⟩ := hd
      have hx := hall d (hl ▸ List.mem_append_right _ List.mem_cons_self)
      exact not_soft_of_hasFile hhas (by rcases hx with hx | hx <;> simp [Soft, hx])
    rw [accessLoop_hit (fun _ => length_lt_of_mem_listDirs) hd]
    constructor
    · intro he
      refine Or.inr ⟨d, hd, ?_⟩
      cases hr : q.resolution (dirFile file d) with
      | error e =>
        rw [hr] at he
        exact congrArg Except.error (Except.error.inj he)
      | ok b => simp [hr, Except.map] at he
    · rintro (hall | ⟨d', hd', hr⟩)
      · exact absurd hall.1 hno
      · rw [hd.unique hd', hr]
        rfl
  · obtain ⟨e, he, hiff⟩ := accessLoop_no_hit (fun _ => length_lt_of_mem_listDirs) (not_exists.mp h) .ENOENT false
    rw [he, Except.error.injEq, hiff]
    constructor
    · exact fun hall => Or.inl hall.2
    · rintro (hall | ⟨d, hd, -⟩)
      · exact ⟨rfl, hall⟩
      · exact absurd ⟨d, hd⟩ h

theorem tryLists_ok {ls : List Str} (hls : ∀ l ∈ ls, l.length < pathMax) (d : Str) :
    (∃ buf, tryLists q file (ls.map present) = .ok (d, buf)) ↔ Reaches q file ls d := by
  induction ls with
  | nil =>
    constructor
    · rintro ⟨buf, h⟩
      cases h
    · rintro ⟨before, l, after, h, -⟩
      simp at h
  | cons l ls ih =>
    have hl := hls l List.mem_cons_self
    have ih := ih fun l hl => hls l (List.mem_cons_of_mem _ hl)
    rw [List.map_cons, tryLists, reaches_cons, ← ih, ← pathAccess_ok hf hfl hl, ← pathAccess_enoent hf hfl hl]
    cases pathAccess q file (present l) with
    | ok r => simp
    | error e =>
      by_cases he : e = .ENOENT
      · simp [he]
      · simp [he]

end

theorem tryLists_none (ls : List (Option Str)) : tryLists q file (none :: ls) = tryLists q file ls := by
  have h : pathAccess q file none = .error .ENOENT := by unfold pathAccess; split <;> rfl
  rw [tryLists, h]

theorem tryLists_nil : ∀ ls, tryLists q [] ls = .error .ENOENT
  | [] => rfl
  | l :: ls => by
    have h : pathAccess q [] l = .error .ENOENT := by unfold pathAccess; rfl
    rw [tryLists, h]
    exact tryLists_nil ls

end

/-! ## The context holds the lists -/

theorem strncpy_strncpy (s : Str) {n m : Nat} (hn : n ≤ m) : strncpy (strncpy s m) n = strncpy s n := by
  unfold strncpy
  rw [List.take_take, min_eq_left (by omega)]

theorem getldLibraryPath_take {curr prev : Option Str} {n : Nat} (hn : n ≤ pathMax) :
    getldLibraryPath curr prev n = strncpy (getldLibraryPath curr prev pathMax) n := by
  unfold getldLibraryPath
  split
  · simp [strncpy]
  · exact (strncpy_strncpy _ hn).symm
  · split
    · simp [strncpy]
    · split
      · exact (strncpy_strncpy _ hn).symm
      · exact (strncpy_strncpy _ hn).symm

theorem Room.taken_le {ls : List Str} {n : Nat} (hn : n < pathMax) (h : Room n ls) :
    if n = 0 then (ls.map taken).sum ≤ pathMax else n + (ls.map taken).sum < pathMax := by
  induction ls generalizing n with
  | nil => simpa using fun _ => hn
  | cons l ls ih =>
    obtain ⟨hl, hrest⟩ := h
    rw [List.map_cons, List.sum_cons, taken]
    by_cases he : l = []
    · simp only [he, if_true] at hrest ⊢
      simpa using ih hn hrest
    · simp only [he, if_false] at hrest ⊢
      have hpos : l.length ≠ 0 := by simpa using he
      have hsum := ih hl hrest
      rw [if_neg (by omega)] at hsum
      by_cases hz : n = 0
      · rw [if_pos hz] at hsum ⊢
        omega
      · rw [if_neg hz] at hsum ⊢
        omega

theorem Room.search {s : LibSources} (h : Room 0 (searchLists s).reverse) :
    ((searchLists s).map taken).sum ≤ pathMax := by
  have := h.taken_le (by decide)
  rw [if_pos rfl, List.map_reverse, List.sum_reverse] at this
  exact this

section
variable {q : Probes} {s : LibSources} {file : Str}

theorem taken_eq (l : Str) : taken l = 0 ∧ l = [] ∨ taken l = l.length + 1 ∧ l ≠ [] := by
  unfold taken
  by_cases h : l = []
  · exact Or.inl ⟨if_pos h, h⟩
  · exact Or.inr ⟨if_neg h, h⟩

theorem strncpy_fits {l : Str} {n : Nat} (h : taken l ≤ n) : strncpy l n = l := by
  unfold strncpy
  rcases taken_eq l with ⟨-, rfl⟩ | ⟨ht, -⟩
  · simp
  · exact List.take_of_length_le (by omega)

theorem length_lt_of_taken {l : Str} (h : taken l ≤ pathMax) : l.length < pathMax := by
  rcases taken_eq l with ⟨-, rfl⟩ | ⟨ht, -⟩
  · decide
  · omega

theorem taken_lists (h : Room 0 (searchLists s).reverse) :
    taken s.runpath + taken (if s.runpath = [] then s.rpath else []) +
      taken (if s.secure then [] else getldLibraryPath s.curr s.prev pathMax) +
      taken (if nodeflib s.flags1 then [] else strncpy s.deflib pathMax) ≤ pathMax := by
  have h := h.search
  unfold searchLists at h
  have h0 : taken [] = 0 := rfl
  by_cases hr : s.runpath = [] <;> cases hs : s.secure <;> cases hf : nodeflib s.flags1
  all_goals
    simp only [hr, hs, hf, h0, if_true, if_false, List.map_append, List.sum_append, List.map_cons, List.map_nil,
      List.sum_cons, List.sum_nil, Bool.true_eq_false, Bool.false_eq_true] at h ⊢
    omega

theorem felfSoContext_eq (h : Room 0 (searchLists s).reverse) : ∃ deflib, felfSoContext s =
      { rpath := present (if s.runpath = [] then s.rpath else [])
        ldLibraryPath := present (if s.secure then [] else getldLibraryPath s.curr s.prev pathMax)
        runpath := present s.runpath
        deflib := deflib
        flags1 := s.flags1 } ∧
      (nodeflib s.flags1 = false → deflib = present (strncpy s.deflib pathMax)) := by
  have h := taken_lists h
  have hlib : (if s.secure then [] else getldLibraryPath s.curr s.prev
      (pathMax - (taken s.runpath + taken (if s.runpath = [] then s.rpath else [])))) =
      if s.secure then [] else getldLibraryPath s.curr s.prev pathMax := by
    cases hs : s.secure with
    | true => rfl
    | false =>
      simp only [hs, Bool.false_eq_true, if_false] at h ⊢
      rw [getldLibraryPath_take (by omega), strncpy_fits (by omega)]
  unfold felfSoContext
  simp only [hlib]
  refine ⟨_, rfl, ?_⟩
  intro hf
  simp only [hf, Bool.false_eq_true, if_false] at h
  rw [← strncpy_strncpy s.deflib (Nat.sub_le _ _), strncpy_fits (by omega)]

theorem tryLists_filter (ls : List (Option Str)) : tryLists q file ls = tryLists q file (ls.filter Option.isSome) := by
  induction ls with
  | nil => rfl
  | cons l ls ih =>
    cases l with
    | none => rw [tryLists_none, ih]; rfl
    | some l => simp only [List.filter_cons, Option.isSome_some, if_true, tryLists, ih]

theorem ldsoLists_filter (execRpath rpath lib runpath deflib : Option Str) (flags1 : Word) (secure : Bool) :
    (ldsoLists execRpath rpath lib runpath deflib flags1 secure).filter Option.isSome =
      ((if runpath.isNone then [rpath, execRpath] else []) ++ (if secure = false then [lib] else []) ++ [runpath] ++
        if nodeflib flags1 = false then [deflib] else []).filter Option.isSome := by
  unfold ldsoLists
  cases runpath <;> cases lib <;> cases deflib <;> cases secure <;> cases nodeflib flags1
  all_goals simp [List.filter_cons]

/-- When the lists fit, the search goes through them, whichever of the two `RPATH`s the file's is. -/
theorem Searcher.access_eq (w : Searcher) (h : Room 0 (searchLists s).reverse) (hs : '/' ∉ file) :
    w.access s q file = tryLists q file ((w.lists s).map present) := by
  obtain ⟨deflib, hc, hd⟩ := felfSoContext_eq h
  unfold Searcher.access Searcher.lists ldsoAccess searchLists
  simp only [hc, if_neg hs]
  cases w
  all_goals
    simp only [tryLists_filter (ldsoLists _ _ _ _ _ _ _), tryLists_filter (List.map _ _), ldsoLists_filter]
    congr 1
    by_cases hr : s.runpath = [] <;> cases hsec : s.secure <;> cases hf : nodeflib s.flags1
    all_goals simp [hr, hf, hd, present, List.filter_cons]

theorem searchLists_lt (h : Room 0 (searchLists s).reverse) : ∀ l ∈ searchLists s, l.length < pathMax := by
  intro l hl
  apply length_lt_of_taken
  exact le_trans (List.single_le_sum (fun _ _ => Nat.zero_le _) _ (List.mem_map_of_mem hl)) h.search

theorem Searcher.lists_lt (w : Searcher) (h : Room 0 (searchLists s).reverse) : ∀ l ∈ w.lists s, l.length < pathMax := by
  intro l hl
  cases w with
  | needed | trace => exact searchLists_lt h l hl
  | dl =>
    by_cases hr : s.runpath = []
    · refine searchLists_lt h l ?_
      simpa [Searcher.lists, searchLists, hr] using hl
    · by_cases he : l = []
      · simp [he, pathMax]
      · refine searchLists_lt h l ?_
        simp only [Searcher.lists, searchLists, hr, if_true, if_false, List.mem_append] at hl ⊢
        simp only [List.mem_cons, List.not_mem_nil, or_false, he, false_or] at hl
        tauto

theorem Reaches.hasFile {ls : List Str} {d : Str} (h : Reaches q file ls d) :
    ∃ x ∈ ls.flatMap listDirs, hasFile q file x = true := by
  obtain ⟨before, l, after, rfl, -, ⟨ds, ds', hl, -, hd⟩, -⟩ := h
  refine ⟨d, ?_, hd⟩
  rw [List.mem_flatMap]
  exact ⟨l, List.mem_append_right _ List.mem_cons_self, hl ▸ List.mem_append_right _ List.mem_cons_self⟩

theorem firstDir_eq_none {ls : List Str} : firstDir q file ls = none ↔ ∀ d ∈ ls.flatMap listDirs, hasFile q file d = false := by
  unfold firstDir
  rw [List.find?_eq_none]
  simp only [Bool.not_eq_true]

theorem Searcher.mem_lists {w : Searcher} {d : Str} (h : d ∈ (w.lists s).flatMap listDirs) :
    d ∈ (searchLists s).flatMap listDirs := by
  cases w with
  | needed | trace => exact h
  | dl =>
    rw [List.mem_flatMap] at h ⊢
    obtain ⟨l, hl, hd⟩ := h
    refine ⟨l, ?_, hd⟩
    by_cases hr : s.runpath = []
    · simpa [Searcher.lists, searchLists, hr] using hl
    · have hne : l ≠ [] := fun he => by simp [he, listDirs] at hd
      simp only [Searcher.lists, searchLists, hr, if_true, if_false, List.mem_append] at hl ⊢
      simp only [List.mem_cons, List.not_mem_nil, or_false, hne, false_or] at hl
      tauto

theorem file_of_tryLists {ls : List Str} {r : Str × Str} (h : tryLists q file (ls.map present) = .ok r) :
    file ≠ [] ∧ file.length ≤ nameMax := by
  have hf : file ≠ [] := by
    rintro rfl
    rw [tryLists_nil] at h
    cases h
  refine ⟨hf, ?_⟩
  by_contra hlen
  induction ls with
  | nil => cases h
  | cons l ls ih =>
    rw [List.map_cons, tryLists] at h
    have hp : ∃ e, pathAccess q file (present l) = .error e := by
      unfold pathAccess
      rw [if_neg hf]
      split
      · exact ⟨_, rfl⟩
      · rw [if_pos (Nat.not_le.mp hlen)]
        exact ⟨_, rfl⟩
    obtain ⟨e, he⟩ := hp
    rw [he] at h
    by_cases hn : e = .ENOENT
    · subst hn
      exact ih h
    · cases e <;> first | cases h | exact hn rfl

theorem listDirs_fldLibPath {list : Str} (h : fldLibPath s = .ok list) :
    (listDirs list).find? (hasFile q file) = firstDir q file (searchLists s).reverse := by
  rw [((fldLibPath_iff s list).mp h).2, listDirs_foldl]
  rfl

/-- The directories that the two lead to are the same, and the first of the order, if and only if
the lists fit and either no directory has the library, or the search comes to a directory that is the
first to have it in the order of the lists and in the order from the last list to the first. -/
theorem lib_path_order (q : Probes) (s : LibSources) (w : Searcher) (file : Str) (hs : '/' ∉ file) :
    OneOrder s q file w ↔ Room 0 (searchLists s).reverse ∧
      ((∀ d ∈ (searchLists s).flatMap listDirs, hasFile q file d = false) ∨
        file ≠ [] ∧ file.length ≤ nameMax ∧ ∃ d, Reaches q file (w.lists s) d ∧
          firstDir q file (searchLists s) = some d ∧ firstDir q file (searchLists s).reverse = some d) := by
  constructor
  · rintro ⟨list, hlist, hdir, horder⟩
    have hr := ((fldLibPath_iff s list).mp hlist).1
    rw [listDirs_fldLibPath hlist] at hdir
    refine ⟨hr, ?_⟩
    cases ha : w.access s q file with
    | error e =>
      rw [ha] at horder
      exact Or.inl (firstDir_eq_none.mp horder)
    | ok r =>
      rw [ha] at hdir horder
      have hok := (w.access_eq hr hs).symm.trans ha
      obtain ⟨hf, hfl⟩ := file_of_tryLists hok
      exact Or.inr ⟨hf, hfl, r.1, (tryLists_ok hf hfl (w.lists_lt hr) r.1).mp ⟨r.2, hok⟩, horder, hdir⟩
  · rintro ⟨hr, h⟩
    have hlist := (fldLibPath_iff s _).mpr ⟨hr, rfl⟩
    refine ⟨_, hlist, ?_⟩
    rw [listDirs_fldLibPath hlist]
    rcases h with hno | ⟨hf, hfl, d, hd, horder, hdir⟩
    · have ha : (w.access s q file).toOption.map Prod.fst = none := by
        cases ha : w.access s q file with
        | error e => rfl
        | ok r =>
          have hok := (w.access_eq hr hs).symm.trans ha
          obtain ⟨hf, hfl⟩ := file_of_tryLists hok
          obtain ⟨x, hx, hhas⟩ := ((tryLists_ok hf hfl (w.lists_lt hr) r.1).mp ⟨r.2, hok⟩).hasFile
          rw [hno x (w.mem_lists hx)] at hhas
          cases hhas
      rw [ha, firstDir_eq_none.mpr hno, firstDir_eq_none]
      refine ⟨?_, rfl⟩
      intro x hx
      rw [List.mem_flatMap] at hx
      obtain ⟨l, hl, hx⟩ := hx
      exact hno x (List.mem_flatMap.mpr ⟨l, List.mem_reverse.mp hl, hx⟩)
    · obtain ⟨buf, hb⟩ := (tryLists_ok hf hfl (w.lists_lt hr) d).mpr hd
      rw [w.access_eq hr hs, hb, horder, hdir]
      exact ⟨rfl, rfl⟩

end

def everywhere : Probes where
  access _ := none
  resolution b := .ok b

def pathFile (secure : Bool) : LibSources where
  rpath := []
  runpath := []
  deflib := "/lib:/usr/lib".toList
  flags1 := 0
  curr := some "/a".toList
  prev := none
  secure := secure

theorem lib_path_order_secure : OneOrder (pathFile true) everywhere "l".toList .needed :=
  (lib_path_order everywhere (pathFile true) .needed "l".toList (by decide)).mpr
    ⟨by decide, Or.inr ⟨by decide, by decide, "/lib".toList,
      ⟨[[]], "/lib:/usr/lib".toList, [], by decide, by simp [Passes, listDirs],
        ⟨[], ["/usr/lib".toList], by decide, by simp, rfl⟩, rfl⟩, by decide, by decide⟩⟩

/-- The loader is led to `/lib`, the search finds the library in `/a`. -/
theorem lib_path_order_differs : LibSources.ofFile .little (libFile true) "/lib:/usr/lib".toList (some "/a".toList) none false =
      some (pathFile false) ∧
    ¬ OneOrder (pathFile false) everywhere "l".toList .needed := by
  refine ⟨by decide, ?_⟩
  rintro ⟨list, hlist, hdir, -⟩
  have hl : fldLibPath (pathFile false) = .ok "/lib:/usr/lib:/a".toList := by decide
  obtain rfl := Except.ok.inj (hlist.symm.trans hl)
  exact absurd hdir (by decide)

end Iamroot
