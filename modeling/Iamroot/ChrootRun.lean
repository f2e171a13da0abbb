import Iamroot.Chroot
import Iamroot.Idempotence
import Iamroot.Quiet

/-!
# The root directory over a run

`chroot` stores what path resolution returns: the path of no directory when the
walk fails, when it ends at something else or at nothing, and when the path is
one that is copied as it is. `__chrootdir` asks whether the path of the working
directory begins with the characters of the root directory, as the path of a
sibling may. While the calls of a run stay clear of that, the variable is unset
or holds the canonical path of a directory, and goes when it should.
-/

namespace Iamroot

open FileTree

/-- What holds of the process while its calls meet the condition. -/
structure Process.Ok (fs : FileSystem) (s : Process) : Prop where
  root : RootOk fs s.root
  short : ∀ r, s.root = some r → r.length < pathMax
  cwd : fs.entry s.cwd = some .dir

/-! ## The condition -/

/-- The walk of `buf` meets no attribute and ends at the directory `m`, not behind a double slash. -/
structure WalksTo (fs : FileSystem) (s : Process) (buf : Str) (m : Loc) : Prop where
  quiet : fs.attr [] = none
  ne_nil : buf ≠ []
  cwd : isAbs buf = false → (pathOf s.cwd).length < pathMax ∧ (fs.quietWalkTree s.root 0).Clear s.cwd
  ends : ∃ o, resolved (fs.quietWalkTree s.root 0) s.cwd buf = some (.ok o) ∧ o.base ≠ .two ∧ o.loc s.cwd = m
  dir : fs.entry m = some .dir

/-- What the second walk is given after the first: the path without the root directory when it is ignored there. -/
def secondText (re : Option (Str → Bool)) (root : Option Str) (buf : Str) : Str :=
  if strleq buf (rootOf root) = true ∧ allowIgnore 0 = true ∧ ignore re (buf.drop (strlen (rootOf root))) = true then
    (striprootdir root buf).getD buf
  else buf

structure LandsAt (fs : FileSystem) (re : Option (Str → Bool)) (s : Process) (path : Str) (m : Loc) : Prop where
  noNul : nul ∉ path
  ordinary : Ordinary re 0 path
  fits : (textOf s.root path).length < pathMax
  leads : ∃ m₁, WalksTo fs s (pathSanitize (textOf s.root path)) m₁ ∧ WalksTo fs s (secondText re s.root (pathOf m₁)) m

/-- The path is refused for its length, or it is that of a directory, as it is or after the walks. -/
def ChrootOk (fs : FileSystem) (re : Option (Str → Bool)) (s : Process) (path : Str) : Prop :=
  pathMax ≤ path.length ∨ path = procRoot ∨ (LeftAlone re 0 path ∧ ∃ m, path = pathOf m ∧ fs.entry m = some .dir) ∨
    (Ordinary re 0 path ∧ pathMax ≤ (textOf s.root path).length) ∨ ∃ m, LandsAt fs re s path m

/-- The path of `m` begins with the characters of the root directory, and `m` is not beneath it. -/
def Lookalike (root : Option Str) (m : Loc) : Prop := ∃ ℓ, root = some (pathOf ℓ) ∧ pathOf ℓ <+: pathOf m ∧ ¬ Beneath ℓ m

/-- No directory looks like one of the root directory, or the path leads to one that does not. -/
def ChdirOk (fs : FileSystem) (re : Option (Str → Bool)) (s : Process) (path : Str) : Prop :=
  (∀ m, fs.entry m = some .dir → ¬ Lookalike s.root m) ∨ ∃ m, LandsAt fs re s path m ∧ ¬ Lookalike s.root m

section
variable (fs : FileSystem) (fds : Int → Option Loc) (re : Option (Str → Bool)) (fuel : Nat)

def callStep (s : Process) (a : Call × Option Errno) : Process := step fs fds re a.2 fuel s a.1

def CallCond (s : Process) (a : Call × Option Errno) : Prop :=
  match a.1 with
  | .chroot path => ChrootOk fs re s path
  | .chdir path => ChdirOk fs re s path
  | .fchdir fd => ∀ m, fds fd = some m → ¬ Lookalike s.root m

end

/-! ## Path resolution of a directory -/

section
variable {fs : FileSystem} {fds : Int → Option Loc} {re : Option (Str → Bool)} {errno : Option Errno} {fuel : Nat}
  {s s' : Process} {path buf : Str} {m : Loc}

theorem Process.Ok.canonical (hs : s.Ok fs) : CanonicalRoot s.root := by
  cases hr : s.root with
  | none => exact Or.inl rfl
  | some r =>
    obtain ⟨ℓ, rfl, hv, -⟩ := hs.root r hr
    by_cases hℓ : ℓ = []
    · exact Or.inl (by rw [hℓ]; rfl)
    · have hpath : pathOf ℓ = render ℓ := if_neg hℓ
      have hshort := hs.short _ hr
      rw [hpath] at hshort
      exact Or.inr ⟨⟨ℓ, hv, hℓ, hshort⟩, congrArg some hpath⟩

theorem WalksTo.walk (h : WalksTo fs s buf m) (hs : s.Ok fs) (fds : Int → Option Loc) (hlen : buf.length < pathMax)
    (hnul : nul ∉ buf) : (pathOf m).length < pathMax ∧ ∀ errno,
      Settles (fun fuel => walkBuf (fs.host s.cwd fds) s.root fuel pathMax 0 errno buf) (.done (pathOf m, errno)) := by
  obtain ⟨o, hr, hb, hm⟩ := h.ends
  have hfin : o.final s.cwd = pathOf m := by
    rw [Place.final, if_neg hb, hm]
  have hcwd := fun ha => And.intro (And.intro hs.cwd (h.cwd ha).1) (h.cwd ha).2
  have hroot := hs.canonical.noNul
  have hshort : (pathOf m).length < pathMax := by
    obtain ⟨n, hn⟩ := FileSystem.realpathat_quiet (fun _ => h.quiet) hcwd hroot fds none h.ne_nil hlen hnul hr
    rw [← hfin]
    exact realpathat_short (hn 0)
  refine ⟨hshort, fun errno => ?_⟩
  have hwalk := walkBuf_quiet (fun _ => h.quiet) hcwd hroot h.ne_nil hlen hnul hr fds pathMax errno
  rwa [leaves, hfin, strncpy_short (Nat.le_refl _) hshort] at hwalk

theorem secondText_kind (re : Option (Str → Bool)) (hR : CanonicalRoot s.root) (hv : ValidLoc m) (hs : (pathOf m).length < pathMax) :
    (secondText re s.root (pathOf m)).length < pathMax ∧ nul ∉ secondText re s.root (pathOf m) := by
  have hn := nul_not_mem_pathOf hv
  unfold secondText
  split
  · rename_i h
    rw [strip_ignored hR (isAbs_pathOf m) hn hs h.1 h.2.2]
    exact ⟨by rw [List.length_drop]; omega, fun hm => hn (List.mem_of_mem_drop hm)⟩
  · exact ⟨hs, hn⟩

theorem nul_not_mem_text (hR : CanonicalRoot s.root) (hn : nul ∉ path) : nul ∉ textOf s.root path := by
  unfold textOf
  split
  · exact nul_not_mem_textOf hR hn
  · exact hn

theorem LandsAt.settles (h : LandsAt fs re s path m) (hs : s.Ok fs) (fds : Int → Option Loc) (errno : Option Errno) :
    (pathOf m).length < pathMax ∧ Settles (fun fuel => resolve fs fds re errno fuel s path) (.done (pathOf m)) := by
  obtain ⟨m₁, h1, h2⟩ := h.leads
  have hz := trims_sanitize (textOf s.root path)
  have hzn : nul ∉ pathSanitize (textOf s.root path) := fun hm =>
    nul_not_mem_text hs.canonical h.noNul (hz.part.subset hm)
  obtain ⟨hs1, hw1⟩ := h1.walk hs fds (Nat.lt_of_le_of_lt hz.part.length_le h.fits) hzn
  obtain ⟨hb, hbn⟩ := secondText_kind re hs.canonical (fs.valid (by rw [h1.dir]; exact Option.some_ne_none _)) hs1
  obtain ⟨hs2, hw2⟩ := h2.walk hs fds hb hbn
  have hend : Settles (fun fuel => finishBuf (fs.host s.cwd fds) s.root re fuel pathMax 0 0 errno false (textOf s.root path))
      (.done (pathOf m)) := by
    refine finishBuf_run (hw1 errno) (if_neg fun hc => absurd hc.2.1 (by decide)) rfl ?_
    rw [if_pos (by decide)]
    exact ⟨errno, hw2 errno⟩
  refine ⟨hs2, Settles.congr (fun fuel => ?_) hend⟩
  unfold resolve pathResolution
  rw [pathResolution2_text h.ordinary (Nat.le_refl _), if_pos h.fits]

theorem resolve_settled {q : Str} (h : Settles (fun fuel => resolve fs fds re errno fuel s path) (.done q))
    (hb : resolve fs fds re errno fuel s path = .done buf) : buf = q := by
  have hsteady : Steady fun fuel => resolve fs fds re errno fuel s path :=
    pathResolution2_steady (fs.host s.cwd fds) s.root re pathMax 0 0 errno atFdcwd path
  have hq := hsteady.settles h (n := fuel) (by rw [hb]; intro hu; cases hu)
  exact Ret.done.inj (hb.symm.trans hq)

def Stored (fs : FileSystem) (buf : Str) : Prop := buf.length < pathMax ∧ ∃ m, buf = pathOf m ∧ ValidLoc m ∧ fs.entry m = some .dir

theorem Stored.of_dir (hs : (pathOf m).length < pathMax) (hm : fs.entry m = some .dir) : Stored fs (pathOf m) :=
  ⟨hs, m, rfl, fs.valid (by rw [hm]; exact Option.some_ne_none _), hm⟩

theorem ChrootOk.stored (h : ChrootOk fs re s path) (hs : s.Ok fs)
    (hb : resolve fs fds re errno fuel s path = .done buf) : Stored fs buf := by
  by_cases hlen : pathMax ≤ path.length
  · rw [resolve, pathResolution, pathResolution2, if_pos (by unfold strnlen; omega)] at hb
    cases hb
  have hstr : strnlen path pathMax ≠ pathMax := by
    unfold strnlen; omega
  by_cases hproc : path = procRoot
  · rw [resolve, pathResolution, pathResolution2, if_neg hstr, if_pos ⟨by decide, (streq_iff _ _).mpr hproc⟩] at hb
    rw [← Ret.done.inj hb]
    exact Stored.of_dir (by decide) fs.root_dir
  rcases h with h | h | ⟨hl, m, rfl, hm⟩ | ⟨ho, hlong⟩ | ⟨m, hm⟩
  · exact absurd h hlen
  · exact absurd h hproc
  · rw [resolve_settled (copyAsIs_settles (by omega) (fun _ => hproc) hl errno atFdcwd) hb]
    exact Stored.of_dir (by omega) hm
  · rw [resolve, pathResolution, pathResolution2_text ho (Nat.le_refl _), if_neg (by omega)] at hb
    cases hb
  · obtain ⟨hshort, hset⟩ := hm.settles hs fds errno
    rw [resolve_settled hset hb]
    obtain ⟨_, -, hlast⟩ := hm.leads
    exact Stored.of_dir hshort hlast.dir

/-! ## The working directory -/

theorem chrootdir_root (fs : FileSystem) (fds : Int → Option Loc) (s : Process) : (chrootdir fs fds s).2 = s ∨ (chrootdir fs fds s).2 = { s with root := none } := by
  unfold chrootdir
  cases (fs.host s.cwd fds).getcwd with
  | error e => exact Or.inl rfl
  | ok cwd =>
    dsimp only
    split
    · exact Or.inl rfl
    · exact Or.inr rfl

theorem Process.Ok.unset (hs : s.Ok fs) : Process.Ok fs { s with root := none } :=
  ⟨fun _ h => (Option.some_ne_none _ h.symm).elim, fun _ h => (Option.some_ne_none _ h.symm).elim, hs.cwd⟩

theorem Process.Ok.chrootdir (hs : s.Ok fs) (fds : Int → Option Loc) : Process.Ok fs (chrootdir fs fds s).2 := by
  rcases chrootdir_root fs fds s with h | h
  · rw [h]; exact hs
  · rw [h]; exact hs.unset

theorem Process.Ok.moved (hs : s.Ok fs) (hm : fs.entry m = some .dir) : Process.Ok fs { s with cwd := m } :=
  ⟨hs.root, hs.short, hm⟩

theorem nextChdir_done (h : nextChdir fs s buf = .ok s') : ∃ m, fs.lookup s.cwd true buf = .ok m ∧ fs.entry m = some .dir ∧
    s' = { s with cwd := m } := by
  unfold nextChdir at h
  cases hl : fs.lookup s.cwd true buf with
  | error e =>
    rw [hl] at h
    cases h
  | ok m =>
    rw [hl] at h
    simp only [bind, Except.bind] at h
    split at h
    · rename_i hd
      exact ⟨m, rfl, hd, (Except.ok.inj h).symm⟩
    · cases h
    · cases h

theorem nextFchdir_done {fd : Int} (h : nextFchdir fs fds s fd = .ok s') : ∃ m, fds fd = some m ∧ fs.entry m = some .dir ∧
    s' = { s with cwd := m } := by
  unfold nextFchdir at h
  split at h
  · cases h
  · rename_i m hm
    split at h
    · rename_i hd
      exact ⟨m, hm, hd, (Except.ok.inj h).symm⟩
    · cases h

theorem pathOf_beneath {ℓ : Loc} (h : Beneath ℓ m) : pathOf ℓ <+: pathOf m := by
  obtain ⟨rel, rfl⟩ := h
  by_cases hℓ : ℓ = []
  · have ha := isAbs_pathOf (rel ++ ℓ)
    rw [isAbs, beq_iff_eq] at ha
    obtain ⟨t, ht⟩ := List.head?_eq_some_iff.mp ha
    rw [ht, hℓ]
    exact ⟨t, rfl⟩
  · have hm : rel ++ ℓ ≠ [] := fun h => hℓ (List.append_eq_nil_iff.mp h).2
    rw [pathOf, pathOf, if_neg hℓ, if_neg hm, render_append]
    exact List.prefix_append _ _

/-- Where the working directory is no lookalike, the characters tell what the components do. -/
theorem chrootdir_done {ℓ : Loc} (hs : s.Ok fs) (hroot : s.root = some (pathOf ℓ)) (hl : ¬ Lookalike s.root s.cwd)
    (h : (chrootdir fs fds s).1 = .done ()) :
    (chrootdir fs fds s).2.root = if Beneath ℓ s.cwd then s.root else none := by
  have hiff : strleq (pathOf s.cwd) (pathOf ℓ) = true ↔ Beneath ℓ s.cwd := by
    rw [strleq_iff (hs.short _ hroot)]
    exact ⟨fun hp => by_contra fun hb => hl ⟨ℓ, hroot, hp, hb⟩, pathOf_beneath⟩
  have hg : getrootdir s.root = pathOf ℓ := by rw [hroot]; rfl
  unfold chrootdir at h ⊢
  cases hc : (fs.host s.cwd fds).getcwd with
  | error e =>
    rw [hc] at h
    cases h
  | ok cwd =>
    have hcwd : pathOf s.cwd = cwd := by
      have hif : (if (pathOf s.cwd).length < pathMax then Except.ok (pathOf s.cwd) else .error Errno.ENAMETOOLONG) = Except.ok cwd := hc
      split at hif
      · exact Except.ok.inj hif
      · cases hif
    dsimp only
    rw [hg, ← hcwd]
    by_cases hb : Beneath ℓ s.cwd
    · rw [if_pos hb, if_pos (hiff.mpr hb)]
    · rw [if_neg hb, if_neg fun hp => hb (hiff.mp hp)]
      rfl

theorem lookup_pathOf (cwd : Loc) (hm : fs.entry m = some .dir) (hs : (pathOf m).length < pathMax) :
    fs.lookup cwd true (pathOf m) = .ok m := by
  have hd : fs.tree.node m = some .dir := by
    rw [FileSystem.node_tree, hm]
    rfl
  have hw : fs.tree.walk (hostRules true) maxSymlinks [] (parse (pathOf m)) = .ok (m, maxSymlinks) := by
    by_cases hne : m = []
    · have hroot : fs.tree.isFile [] = false := FileSystem.isFile_of_dir fs.root_dir
      have hp : parse (pathOf m) = [.empty, .empty] := by rw [hne]; rfl
      rw [hp, DirTree.walk_go (move_empty hroot), DirTree.walk_go (move_empty hroot), DirTree.walk_nil, hne]
    · have hrender : fs.tree.walk (hostRules true) maxSymlinks [] (parse (render m) ++ []) =
          fs.tree.walk (hostRules true) maxSymlinks m [] :=
        walk_render (fs.valid (by rw [hm]; exact Option.some_ne_none _)) (FileSystem.clear_of_dir hm) hd
      rw [List.append_nil, DirTree.walk_nil] at hrender
      rw [pathOf, if_neg hne, hrender]
  rw [FileSystem.lookup, if_neg (pathOf_ne_nil m), if_neg (Nat.not_le.mpr hs), isAbs_pathOf, if_pos rfl, hw]
  rfl

theorem ChdirOk.unlike (h : ChdirOk fs re s path) (hs : s.Ok fs) (hb : resolve fs fds re errno fuel s path = .done buf)
    (hn : nextChdir fs s buf = .ok s') : ¬ Lookalike s.root s'.cwd := by
  obtain ⟨m', hl, hd, rfl⟩ := nextChdir_done hn
  rcases h with h | ⟨m, hm, h⟩
  · exact h m' hd
  · obtain ⟨hshort, hset⟩ := hm.settles hs fds errno
    obtain ⟨_, -, hlast⟩ := hm.leads
    rw [resolve_settled hset hb, lookup_pathOf s.cwd hlast.dir hshort] at hl
    rwa [← Except.ok.inj hl]

/-! ## One call -/

/-- A call leaves the process as it was, or `chroot` has stored the path of a directory, or the host has
moved to a directory that is no lookalike and `__chrootdir` comes after. -/
theorem callStep_cases (fuel : Nat) (hs : s.Ok fs) {c : Call} (hc : CallCond fs fds re s (c, errno)) :
    (c.run fs fds re errno fuel s).2 = s ∧ (c.run fs fds re errno fuel s).1 ≠ .done () ∨
    (∃ path buf, c = .chroot path ∧ Stored fs buf ∧ c.run fs fds re errno fuel s = (.done (), { s with root := some buf })) ∨
    ((∀ path, c ≠ .chroot path) ∧ ∃ m, fs.entry m = some .dir ∧ ¬ Lookalike s.root m ∧
      c.run fs fds re errno fuel s = chrootdir fs fds { s with cwd := m }) := by
  cases c with
  | chroot path =>
    simp only [Call.run]
    cases hb : resolve fs fds re errno fuel s path with
    | done buf => exact Or.inr (Or.inl ⟨path, buf, rfl, ChrootOk.stored hc hs hb, rfl⟩)
    | fail e => exact Or.inl ⟨rfl, by intro h; cases h⟩
    | fault => exact Or.inl ⟨rfl, by intro h; cases h⟩
    | unfinished => exact Or.inl ⟨rfl, by intro h; cases h⟩
  | chdir path =>
    simp only [Call.run]
    cases hb : resolve fs fds re errno fuel s path with
    | done buf =>
      dsimp only
      cases hn : nextChdir fs s buf with
      | error e => exact Or.inl ⟨rfl, by intro h; cases h⟩
      | ok s' =>
        have hl := ChdirOk.unlike hc hs hb hn
        obtain ⟨m, -, hd, rfl⟩ := nextChdir_done hn
        exact Or.inr (Or.inr ⟨(by intro p hp; cases hp), m, hd, hl, rfl⟩)
    | fail e => exact Or.inl ⟨rfl, by intro h; cases h⟩
    | fault => exact Or.inl ⟨rfl, by intro h; cases h⟩
    | unfinished => exact Or.inl ⟨rfl, by intro h; cases h⟩
  | fchdir fd =>
    simp only [Call.run]
    cases hp : (fs.host s.cwd fds).fpath fd with
    | error e => exact Or.inl ⟨rfl, by intro h; cases h⟩
    | ok p =>
      dsimp only
      cases hn : nextFchdir fs fds s fd with
      | error e => exact Or.inl ⟨rfl, by intro h; cases h⟩
      | ok s' =>
        obtain ⟨m, hf, hd, rfl⟩ := nextFchdir_done hn
        exact Or.inr (Or.inr ⟨(by intro p hp; cases hp), m, hd, hc m hf, rfl⟩)

theorem Process.Ok.stored (hs : s.Ok fs) (hb : Stored fs buf) : Process.Ok fs { s with root := some buf } := by
  obtain ⟨hlen, m, rfl, hv, hd⟩ := hb
  refine ⟨fun r hr => ?_, fun r hr => ?_, hs.cwd⟩
  · rw [← Option.some.inj hr]
    exact ⟨m, rfl, hv, hd⟩
  · rw [← Option.some.inj hr]
    exact hlen

theorem callStep_ok (hs : s.Ok fs) (a : Call × Option Errno) (ha : CallCond fs fds re s a) :
    Process.Ok fs (callStep fs fds re fuel s a) := by
  show Process.Ok fs (a.1.run fs fds re a.2 fuel s).2
  rcases callStep_cases fuel hs ha with ⟨h, -⟩ | ⟨_, buf, -, hb, h⟩ | ⟨-, m, hm, -, h⟩
  · rw [h]; exact hs
  · rw [h]; exact hs.stored hb
  · rw [h]; exact (hs.moved hm).chrootdir fds

theorem call_ok (hs : s.Ok fs) {c : Call} (hc : CallCond fs fds re s (c, errno))
    (hdone : (c.run fs fds re errno fuel s).1 = .done ()) : CallOk fs s (step fs fds re errno fuel s c) c := by
  have hok : Process.Ok fs (step fs fds re errno fuel s c) := callStep_ok hs (c, errno) hc
  rcases callStep_cases fuel hs hc with ⟨-, h⟩ | ⟨path, buf, rfl, -, -⟩ | ⟨hne, m, hm, hl, h⟩
  · exact absurd hdone h
  · exact hok.root
  · have hstep : step fs fds re errno fuel s c = (chrootdir fs fds { s with cwd := m }).2 := congrArg Prod.snd h
    have hcwd : (step fs fds re errno fuel s c).cwd = m := by
      rw [hstep]
      rcases chrootdir_root fs fds { s with cwd := m } with h' | h' <;> rw [h']
    have hnone : s.root = none → (step fs fds re errno fuel s c).root = none := by
      intro hr
      rw [hstep]
      rcases chrootdir_root fs fds { s with cwd := m } with h' | h' <;> rw [h']
      exact hr
    have hset : ∀ ℓ, s.root = some (pathOf ℓ) →
        (step fs fds re errno fuel s c).root = if Beneath ℓ (step fs fds re errno fuel s c).cwd then s.root else none := by
      intro ℓ hr
      rw [hcwd, hstep]
      exact chrootdir_done (hs.moved hm) hr hl ((congrArg Prod.fst h).symm.trans hdone)
    cases c with
    | chroot path => exact absurd rfl (hne path)
    | chdir path => exact ⟨hok.root, hnone, hset⟩
    | fchdir fd => exact ⟨hok.root, hnone, hset⟩

end

/-! ## Whole runs -/

/-- **The root directory over a run.** From a process without one, while every call meets the
condition, each call that succeeds leaves the variable as it should be. -/
theorem chroot_run (fs : FileSystem) (fds : Int → Option Loc) (re : Option (Str → Bool)) (fuel : Nat) (s : Process)
    (hroot : s.root = none) (hcwd : fs.entry s.cwd = some .dir) (l : List (Call × Option Errno))
    (hl : Run.Meets (callStep fs fds re fuel) (CallCond fs fds re) s l) (l₁ : List (Call × Option Errno))
    (a : Call × Option Errno) (hp : l₁ ++ [a] <+: l)
    (hdone : (a.1.run fs fds re a.2 fuel (Run.exec (callStep fs fds re fuel) s l₁)).1 = .done ()) :
    CallOk fs (Run.exec (callStep fs fds re fuel) s l₁) (Run.exec (callStep fs fds re fuel) s (l₁ ++ [a])) a.1 := by
  have hs : s.Ok fs := by
    refine ⟨fun r hr => ?_, fun r hr => ?_, hcwd⟩
    · rw [hroot] at hr; cases hr
    · rw [hroot] at hr; cases hr
  obtain ⟨l₂, rfl⟩ := hp
  have hmeets := hl.of_append
  have hok : Process.Ok fs (Run.exec (callStep fs fds re fuel) s l₁) :=
    Run.Meets.inv (I := fun s => Process.Ok fs s) (fun s a hs ha => callStep_ok hs a ha) l₁ s hs hmeets.of_append
  rw [Run.exec_append]
  exact call_ok hok hmeets.last hdone

/-- The directories `/r`, `/r/d` and `/r2`; the descriptor 3 leads to the last one, and 4 to the root of the host. -/
def siblings : FileSystem := .ofList [([['r']], .dir), ([['d'], ['r']], .dir), ([['r', '2']], .dir)] (by decide)

def siblingFds : Int → Option Loc := fun fd => if fd = 3 then some [['r', '2']] else if fd = 4 then some [] else none

theorem siblings_ok : Process.Ok siblings ⟨none, []⟩ :=
  ⟨fun r h => (Option.some_ne_none r h.symm).elim, fun r h => (Option.some_ne_none r h.symm).elim, rfl⟩

theorem siblings_ok_in : Process.Ok siblings ⟨some ['/', 'r'], []⟩ := by
  refine ⟨fun r h => ?_, fun r h => ?_, rfl⟩
  · cases h
    exact ⟨[['r']], rfl, by decide, rfl⟩
  · cases h
    decide

theorem siblings_lands : LandsAt siblings none ⟨none, []⟩ ['/', 'r'] [['r']] where
  noNul := by decide
  ordinary := ⟨by decide, fun _ => by decide, fun _ => by decide⟩
  fits := by decide
  leads := by
    have hleads : WalksTo siblings ⟨none, []⟩ ['/', 'r'] [['r']] :=
      ⟨rfl, by decide, fun h => absurd h (by decide), ⟨.ofLoc [['r']], rfl, by decide, rfl⟩, rfl⟩
    exact ⟨[['r']], hleads, hleads⟩

theorem siblings_lands_in : LandsAt siblings none ⟨some ['/', 'r'], []⟩ ['/', 'd'] [['d'], ['r']] where
  noNul := by decide
  ordinary := ⟨by decide, fun _ => by decide, fun _ => by decide⟩
  fits := by decide
  leads := by
    have hleads : WalksTo siblings ⟨some ['/', 'r'], []⟩ ['/', 'r', '/', 'd'] [['d'], ['r']] :=
      ⟨rfl, by decide, fun h => absurd h (by decide), ⟨.ofLoc [['d'], ['r']], rfl, by decide, rfl⟩, rfl⟩
    exact ⟨[['d'], ['r']], hleads, hleads⟩

theorem siblings_calls : ∃ fuel, (Call.chroot ['/', 'r']).run siblings siblingFds none none fuel ⟨none, []⟩ =
      (.done (), ⟨some ['/', 'r'], []⟩) ∧
    (Call.chdir ['/', 'd']).run siblings siblingFds none none fuel ⟨some ['/', 'r'], []⟩ =
      (.done (), ⟨some ['/', 'r'], [['d'], ['r']]⟩) := by
  obtain ⟨n, hn⟩ := (siblings_lands.settles siblings_ok siblingFds none).2
  obtain ⟨m, hm⟩ := (siblings_lands_in.settles siblings_ok_in siblingFds none).2
  refine ⟨n + m, ?_, ?_⟩
  · simp only [Call.run]
    rw [show resolve siblings siblingFds none none (n + m) ⟨none, []⟩ ['/', 'r'] = .done ['/', 'r'] from hn m]
    rfl
  · have hin : resolve siblings siblingFds none none (n + m) ⟨some ['/', 'r'], []⟩ ['/', 'd'] = .done ['/', 'r', '/', 'd'] := by
      rw [Nat.add_comm n m]
      exact hm n
    simp only [Call.run]
    rw [hin]
    rfl

def siblingCalls : List (Call × Option Errno) := [(.chroot ['/', 'r'], none), (.chdir ['/', 'd'], none), (.fchdir 4, none)]

theorem siblings_unlike : ¬ Lookalike (some ['/', 'r']) [['d'], ['r']] := by
  intro h
  obtain ⟨ℓ, hℓ, -, hout⟩ := h
  refine hout ?_
  have hpath : ['/', 'r'] = pathOf ℓ := Option.some.inj hℓ
  cases ℓ with
  | nil => exact absurd hpath (by decide)
  | cons c ℓ =>
    rw [pathOf, if_neg (List.cons_ne_nil c ℓ), render_cons] at hpath
    by_cases hne : ℓ = []
    · subst hne
      cases hpath
      decide
    · obtain ⟨t, ht⟩ := render_head hne
      rw [ht, List.cons_append] at hpath
      have ht := (List.cons.inj hpath).2
      cases t with
      | nil => exact absurd (List.cons.inj ht).1 (by decide)
      | cons x t => exact absurd (List.cons.inj ht).2 (by simp)

theorem siblings_meets {fuel : Nat}
    (h1 : (Call.chroot ['/', 'r']).run siblings siblingFds none none fuel ⟨none, []⟩ = (.done (), ⟨some ['/', 'r'], []⟩))
    (h2 : (Call.chdir ['/', 'd']).run siblings siblingFds none none fuel ⟨some ['/', 'r'], []⟩ =
      (.done (), ⟨some ['/', 'r'], [['d'], ['r']]⟩)) :
    Run.Meets (callStep siblings siblingFds none fuel) (CallCond siblings siblingFds none) ⟨none, []⟩ siblingCalls := by
  have hs1 : callStep siblings siblingFds none fuel ⟨none, []⟩ (.chroot ['/', 'r'], none) = ⟨some ['/', 'r'], []⟩ :=
    congrArg Prod.snd h1
  have hs2 : callStep siblings siblingFds none fuel ⟨some ['/', 'r'], []⟩ (.chdir ['/', 'd'], none) =
      ⟨some ['/', 'r'], [['d'], ['r']]⟩ := congrArg Prod.snd h2
  refine ⟨.inr (.inr (.inr (.inr ⟨_, siblings_lands⟩))), ?_⟩
  rw [hs1]
  refine ⟨.inr ⟨_, siblings_lands_in, siblings_unlike⟩, ?_⟩
  rw [hs2]
  refine ⟨fun m hm h => ?_, trivial⟩
  cases hm
  obtain ⟨ℓ, hℓ, hp, -⟩ := h
  rw [← Option.some.inj hℓ] at hp
  exact absurd hp (by decide)

/-- The variable is set by `chroot("/r")`, stays with `chdir("/d")` and goes with `fchdir(4)`. -/
theorem chroot_run_siblings : ∃ fuel, Run.exec (callStep siblings siblingFds none fuel) ⟨none, []⟩ siblingCalls = ⟨none, []⟩ ∧
    CallOk siblings ⟨none, []⟩ ⟨some ['/', 'r'], []⟩ (.chroot ['/', 'r']) ∧
    CallOk siblings ⟨some ['/', 'r'], []⟩ ⟨some ['/', 'r'], [['d'], ['r']]⟩ (.chdir ['/', 'd']) ∧
    CallOk siblings ⟨some ['/', 'r'], [['d'], ['r']]⟩ ⟨none, []⟩ (.fchdir 4) := by
  obtain ⟨fuel, h1, h2⟩ := siblings_calls
  have h3 : (Call.fchdir 4).run siblings siblingFds none none fuel ⟨some ['/', 'r'], [['d'], ['r']]⟩ = (.done (), ⟨none, []⟩) := rfl
  have hmeets := siblings_meets h1 h2
  have e1 : Run.exec (callStep siblings siblingFds none fuel) ⟨none, []⟩ [(.chroot ['/', 'r'], none)] = ⟨some ['/', 'r'], []⟩ :=
    congrArg Prod.snd h1
  have e2 : Run.exec (callStep siblings siblingFds none fuel) ⟨none, []⟩ [(.chroot ['/', 'r'], none), (.chdir ['/', 'd'], none)] =
      ⟨some ['/', 'r'], [['d'], ['r']]⟩ := by
    rw [Run.exec, show callStep siblings siblingFds none fuel ⟨none, []⟩ (.chroot ['/', 'r'], none) = _ from e1]
    exact congrArg Prod.snd h2
  have e3 : Run.exec (callStep siblings siblingFds none fuel) ⟨none, []⟩ siblingCalls = ⟨none, []⟩ := by
    rw [show siblingCalls = [(.chroot ['/', 'r'], none), (.chdir ['/', 'd'], none)] ++ [(.fchdir 4, none)] from rfl,
      Run.exec_append, e2]
    exact congrArg Prod.snd h3
  have hrun := chroot_run siblings siblingFds none fuel ⟨none, []⟩ rfl rfl siblingCalls hmeets
  refine ⟨fuel, e3, ?_, ?_, ?_⟩
  · have h := hrun [] (.chroot ['/', 'r'], none) ⟨_, rfl⟩ (congrArg Prod.fst h1)
    rwa [List.nil_append, e1] at h
  · have h := hrun [(.chroot ['/', 'r'], none)] (.chdir ['/', 'd'], none) ⟨_, rfl⟩ (by rw [e1]; exact congrArg Prod.fst h2)
    rwa [e1, List.singleton_append, e2] at h
  · have h := hrun [(.chroot ['/', 'r'], none), (.chdir ['/', 'd'], none)] (.fchdir 4, none) ⟨_, rfl⟩
      (by rw [e2]; exact congrArg Prod.fst h3)
    rwa [e2, show [(Call.chroot ['/', 'r'], none), (.chdir ['/', 'd'], none)] ++ [(.fchdir 4, none)] = siblingCalls from rfl, e3] at h

/-- After `chroot("/r")`, `fchdir(3)` moves the host to `/r2`, which is not beneath `/r`, and the variable stays. -/
theorem chroot_stays : ∃ fuel,
    (Run.exec (callStep siblings siblingFds none fuel) ⟨none, []⟩ [(.chroot ['/', 'r'], none), (.fchdir 3, none)]) =
      ⟨some ['/', 'r'], [['r', '2']]⟩ ∧
    ((Call.fchdir 3).run siblings siblingFds none none fuel
      (Run.exec (callStep siblings siblingFds none fuel) ⟨none, []⟩ [(.chroot ['/', 'r'], none)])).1 = .done () ∧
    some ['/', 'r'] = some (pathOf [['r']]) ∧ ¬ Beneath [['r']] [['r', '2']] := by
  obtain ⟨fuel, h, -⟩ := siblings_calls
  have h1 : callStep siblings siblingFds none fuel ⟨none, []⟩ (.chroot ['/', 'r'], none) = ⟨some ['/', 'r'], []⟩ :=
    congrArg Prod.snd h
  have h2 : (Call.fchdir 3).run siblings siblingFds none none fuel ⟨some ['/', 'r'], []⟩ =
      (.done (), ⟨some ['/', 'r'], [['r', '2']]⟩) := rfl
  refine ⟨fuel, ?_, ?_, by decide, by decide⟩
  · show callStep siblings siblingFds none fuel (callStep siblings siblingFds none fuel ⟨none, []⟩ _) (.fchdir 3, none) = _
    rw [h1]
    exact congrArg Prod.snd h2
  · show ((Call.fchdir 3).run siblings siblingFds none none fuel (callStep siblings siblingFds none fuel ⟨none, []⟩ _)).1 = _
    rw [h1]
    exact congrArg Prod.fst h2

end Iamroot
