import Iamroot.Confinement
import Iamroot.Quiet
import Iamroot.Chroot

/-!
# The root directory put before a path, and taken off again

Where no link and no attribute is met, path resolution puts the root directory
before a clean path and leaves the rest as it is, even below a missing name or
a file. `__striprootdir`, and so `getcwd` after a `chdir`, gives the path back.
-/

namespace Iamroot

open FileTree

def PlainWay (fs : FileSystem) (ℓ : Loc) : Prop := ∀ m ∈ ℓ.tails, fs.attr m = none ∧ fs.tree.isLink m = false

instance (fs : FileSystem) (ℓ : Loc) : Decidable (PlainWay fs ℓ) := by unfold PlainWay; infer_instance

def getcwd (fs : FileSystem) (fds : Int → Option Loc) (s : Process) : Except Errno Str := do
  let ret ← (fs.host s.cwd fds).getcwd
  match striprootdir s.root ret with
  | some ret => .ok ret
  | none => .error .EINVAL

section
variable {fs : FileSystem} {env : Option Str} {cwd ℓ : Loc} {atflags : Word} {errno : Option Errno}

theorem PlainWay.tail {c : Str} (h : PlainWay fs (c :: ℓ)) : PlainWay fs ℓ := fun m hm =>
  h m ((List.mem_tails _ _).mpr (((List.mem_tails _ _).mp hm).trans (List.suffix_cons c ℓ)))

theorem PlainWay.here (h : PlainWay fs ℓ) : fs.attr ℓ = none ∧ fs.tree.isLink ℓ = false :=
  h ℓ ((List.mem_tails _ _).mpr List.suffix_rfl)

theorem PlainWay.attr_root (h : PlainWay fs ℓ) : fs.attr [] = none := (h [] ((List.mem_tails _ _).mpr List.nil_suffix)).1

theorem PlainWay.redirects {c : Str} (h : PlainWay fs (c :: ℓ)) : fs.redirects (c :: ℓ) = false := by
  rw [FileSystem.redirects]
  by_cases hn : fs.tree.node (c :: ℓ) = none
  · cases hw : fs.tree.walk (hostRules true) maxSymlinks ℓ [.name c] with
    | error e => rfl
    | ok v =>
      by_cases hf : fs.tree.isFile ℓ = true
      · have hstop : fs.tree.move (hostRules true) ℓ (.name c) [] = .stop .notDir := by
          simp only [DirTree.move, hn, hf, if_true]
        rw [DirTree.walk_stop hstop] at hw
        cases hw
      · have hgo : fs.tree.move (hostRules true) ℓ (.name c) [] = .go (c :: ℓ) := by
          simp only [DirTree.move, hn]
          simp [hf]
        rw [DirTree.walk_go hgo, DirTree.walk_nil] at hw
        obtain rfl := Except.ok.inj hw
        simp only [FileSystem.node_tree_none.mp hn, Option.isSome_none, Bool.false_and]
  · rw [DirTree.walk_go (DirTree.move_name_clear hn h.here.2), DirTree.walk_nil]
    simp only [h.here.1, Option.isSome_none, Bool.and_false]

theorem PlainWay.node (h : PlainWay fs ℓ) : fs.quietNode env ℓ = (fs.seenTree env).node ℓ := by
  induction ℓ with
  | nil => exact (fs.seenTree env).root_dir.symm
  | cons c ℓ ih =>
    rw [FileSystem.quietNode, ih h.tail, h.redirects]
    split
    · rfl
    · rename_i hd
      by_contra hne
      exact hd ((fs.seenTree env).parent_dir (Ne.symm hne))

theorem PlainWay.isLink (h : PlainWay fs ℓ) : (fs.quietWalkTree env atflags).isLink ℓ = false := by
  unfold FileSystem.quietWalkTree
  split
  · rw [DirTree.isLink, FileSystem.node_quiet, h.node]
    exact (FileSystem.isLink_seen env ℓ).trans h.here.2
  · exact FileSystem.isLink_blank ℓ

end

/-! ## The walk without links -/

section
variable {t : DirTree Str} {cwd : Loc} {n : Nat} {o : Place}

/-- Without links the names are put after the output one by one, as far as the first file. -/
theorem advance_linkless {ns : List Str} (hl : ∀ m, m <:+ ns.reverse ++ o.loc cwd → t.isLink m = false)
    (hs : ({ o with names := ns.reverse ++ o.names } : Place).text.length < pathMax) :
    advance t cwd n o (ns.map .name) = advance t cwd n { o with names := ns.reverse ++ o.names } [] ∨
      advance t cwd n o (ns.map .name) = some (.error .notDir) := by
  induction ns generalizing o with
  | nil => exact Or.inl rfl
  | cons m ns ih =>
    rw [List.reverse_cons, List.append_assoc, List.singleton_append] at hl hs
    have hshort : (addName o.text m).length < pathMax := Nat.lt_of_le_of_lt ((o.push m).length_text_le ns.reverse) hs
    have hm : t.isLink (m :: o.loc cwd) = false := hl _ (List.suffix_append _ _)
    cases hf : t.isFile (o.loc cwd) with
    | true =>
      right
      have hs' : ¬ pathMax ≤ (addName o.text (compText (.name m))).length := Nat.not_le.mpr hshort
      rw [List.map_cons, advance_eq, advanceWith, if_neg hs']
      simp only [hf, if_true]
    | false =>
      rw [List.map_cons, advance_push hshort hf hm, List.reverse_cons, List.append_assoc]
      exact ih (o := o.push m) hl hs

theorem resolved_linkless {ℓ : Loc} (hv : ValidLoc ℓ) (hl : ∀ m, m <:+ ℓ → t.isLink m = false) (hs : (pathOf ℓ).length < pathMax) :
    resolved t cwd (pathOf ℓ) = some (.ok (.ofLoc ℓ)) ∨ resolved t cwd (pathOf ℓ) = some (.error .notDir) := by
  by_cases hℓ : ℓ = []
  · subst hℓ
    exact Or.inl (resolved_pathOf hv trivial hs)
  have hroot : t.isFile ((Place.ofLoc []).loc cwd) = false := by
    have he : (Place.ofLoc []).loc cwd = [] := rfl
    rw [he, DirTree.isFile, t.root_dir]
  have hp : ({ Place.ofLoc [] with names := ℓ.reverse.reverse ++ (Place.ofLoc []).names } : Place) = .ofLoc ℓ := by
    rw [List.reverse_reverse]
    simp [Place.ofLoc]
  have hl' : ∀ m, m <:+ ℓ.reverse.reverse ++ (Place.ofLoc []).loc cwd → t.isLink m = false := by
    have he : (Place.ofLoc []).loc cwd = [] := rfl
    rwa [he, List.reverse_reverse, List.append_nil]
  have hend : advance t cwd (symloopMax - 1) (.ofLoc ℓ) [] = some (.ok (.ofLoc ℓ)) := by
    rw [advance_nil]
    rfl
  have hn := advance_linkless (n := symloopMax - 1) hl' (by rw [hp, Place.ofLoc_text hv]; exact hs)
  rw [hp, hend] at hn
  rw [resolved, start_pathOf hv, parse_pathOf hv, advance_empty (by decide) hroot, if_neg hℓ]
  exact hn

end

/-! ## Path resolution of a clean path -/

section
variable {fs : FileSystem} {R : RootDir} {re : Option (Str → Bool)} {cwd : Loc} {fds : Int → Option Loc}
  {bufsiz : Nat} {atflags : Word} {errno : Option Errno} {rel : Loc}

theorem walkBuf_plain {ℓ : Loc} {env : Option Str} (h : PlainWay fs ℓ) (hroot : nul ∉ getrootdir env) (hv : ValidLoc ℓ)
    (hs : (pathOf ℓ).length < pathMax) (hbuf : pathMax ≤ bufsiz) :
    ∃ e, Settles (fun fuel => walkBuf (fs.host cwd fds) env fuel bufsiz atflags errno (pathOf ℓ)) (.done (pathOf ℓ, e)) := by
  have hl : ∀ m, m <:+ ℓ → (fs.quietWalkTree env atflags).isLink m = false := by
    intro m hm
    refine PlainWay.isLink fun m' hm' => h m' ?_
    exact (List.mem_tails _ _).mpr (((List.mem_tails _ _).mp hm').trans hm)
  have hset : ∀ r, resolved (fs.quietWalkTree env atflags) cwd (pathOf ℓ) = some r →
      Settles (fun fuel => walkBuf (fs.host cwd fds) env fuel bufsiz atflags errno (pathOf ℓ))
        (.done (leaves cwd bufsiz (pathOf ℓ) errno r)) := fun r hr =>
    walkBuf_quiet (fun _ => h.attr_root) (fun ha => by rw [isAbs_pathOf] at ha; cases ha) hroot
      (pathOf_ne_nil ℓ) hs (nul_not_mem_pathOf hv) hr fds bufsiz errno
  have hres : resolved (fs.quietWalkTree env atflags) cwd (pathOf ℓ) = some (.ok (.ofLoc ℓ)) ∨
      resolved (fs.quietWalkTree env atflags) cwd (pathOf ℓ) = some (.error .notDir) := resolved_linkless hv hl hs
  rcases hres with hr | hr
  · have hd := hset _ hr
    simp only [leaves, Place.ofLoc_final, strncpy_short hbuf hs] at hd
    exact ⟨_, hd⟩
  · exact ⟨_, hset _ hr⟩

theorem sanitize_pathOf (R : RootDir) (hv : ValidLoc rel) : pathSanitize (R.path ++ pathOf rel) = pathOf (rel ++ R.loc) := by
  have htail : ∀ {ℓ : Loc}, ValidLoc ℓ → ℓ ≠ [] → (pathOf ℓ).reverse.head? ≠ some '/' ∧ ¬ ['.', '/'] <+: (pathOf ℓ).reverse := by
    intro ℓ hv hne
    cases ℓ with
    | nil => exact absurd rfl hne
    | cons c ℓ => exact entry_tail (hv c List.mem_cons_self) (render ℓ)
  have hval : ValidLoc (rel ++ R.loc) := fun c hc => (List.mem_append.mp hc).elim (hv c) (R.valid c)
  obtain ⟨h1, h2⟩ := htail hval (by simp [R.ne_nil])
  have hs := fun s hs => sanitize_eq (s := s) (isAbs_pathOf (rel ++ R.loc)) h1 h2 hs
  by_cases hrel : rel = []
  · subst hrel
    have hR : pathOf R.loc = R.path := if_neg R.ne_nil
    have h := hs ['/'] (Or.inr rfl)
    rw [List.nil_append, hR] at h ⊢
    exact h
  · have hren : pathOf rel = render rel := if_neg hrel
    have h := hs [] (Or.inl rfl)
    rw [List.append_nil, pathOf_append] at h
    rw [pathOf_append, hren]
    exact h

structure InChrootPath (fs : FileSystem) (R : RootDir) (re : Option (Str → Bool)) (rel : Loc) : Prop where
  valid : ValidLoc rel
  way : PlainWay fs (rel ++ R.loc)
  unlike : ¬ R.path <+: pathOf rel
  kept : ignore re (pathOf rel) = false
  short : (R.path ++ pathOf rel).length < pathMax

variable (h : InChrootPath fs R re rel)
include h

theorem InChrootPath.valid_append : ValidLoc (rel ++ R.loc) := fun c hc =>
  (List.mem_append.mp hc).elim (h.valid c) (R.valid c)

theorem InChrootPath.short_append : (pathOf (rel ++ R.loc)).length < pathMax := by
  have hs := h.short
  rw [pathOf_append]
  unfold pathOf at hs
  split at hs
  · rename_i hrel
    rw [hrel, render, List.append_nil]
    exact R.short
  · exact hs

theorem pathResolution_plain (hbuf : pathMax ≤ bufsiz) (hproc : pathOf rel ≠ procRoot)
    (hdev : ¬ devFd <+: pathOf rel) (dfd : Int) :
    Settles (fun fuel => pathResolution (fs.host cwd fds) (some R.path) re fuel bufsiz atflags errno dfd (pathOf rel))
      (.done (pathOf (rel ++ R.loc))) := by
  have hlen := h.short
  rw [List.length_append] at hlen
  have ho : Ordinary re 0 (pathOf rel) := ⟨by omega, fun _ => ⟨hproc, hdev⟩, fun _ => h.kept⟩
  refine Settles.congr (fun fuel => pathResolution2_abs ho hbuf (isAbs_pathOf rel) h.unlike h.short) ?_
  have hwalk : ∀ errno, ∃ e, Settles (fun fuel => walkBuf (fs.host cwd fds) (some R.path) fuel bufsiz atflags errno
      (pathOf (rel ++ R.loc))) (.done (pathOf (rel ++ R.loc), e)) := fun errno =>
    walkBuf_plain h.way R.noNul h.valid_append h.short_append hbuf
  obtain ⟨e, h1⟩ : ∃ e, Settles (fun fuel => if followSymlink atflags then walkBuf (fs.host cwd fds) (some R.path) fuel bufsiz
      atflags errno (pathSanitize (R.path ++ pathOf rel)) else .done (pathSanitize (R.path ++ pathOf rel), errno))
      (.done (pathOf (rel ++ R.loc), e)) := by
    rw [sanitize_pathOf R h.valid]
    by_cases hf : followSymlink atflags = true
    · simp only [hf, if_true]
      exact hwalk errno
    · simp only [hf, if_false, Bool.false_eq_true]
      exact ⟨errno, Settles.const _⟩
  refine finishBuf_settles h1 (if_neg nofun) (fun _ _ => ?_) ?_
  · rw [pathOf_append, List.drop_left]
    by_cases hrel : rel = []
    · rw [hrel]
      rfl
    · rw [← show pathOf rel = render rel from if_neg hrel]
      exact h.kept
  · exact hwalk e

omit h in
theorem pathResolution_devFd {h : Host} {env : Option Str} {p : Str} (hbuf : pathMax ≤ bufsiz) (hs : p.length < pathMax)
    (hdev : devFd <+: p) (dfd : Int) (fuel : Nat) : pathResolution h env re fuel bufsiz atflags errno dfd p = .done p := by
  have hlen : strnlen p pathMax ≠ pathMax := by
    unfold strnlen
    omega
  have hproc : ¬ (allowMagicLinks 0 = true ∧ streq p procRoot = true) := by
    rintro ⟨-, he⟩
    rw [(streq_iff _ _).mp he] at hdev
    exact absurd hdev (by decide)
  have hcopy : copyAsIs p bufsiz = .done p := by
    have : strnlen p bufsiz = strlen p := by
      unfold strlen strnlen
      omega
    unfold copyAsIs
    rw [strncpy_short hbuf hs, if_neg (not_not_intro this)]
  have hdev' : strneq p devFd devFd.length = true := by
    rw [strneq, List.take_length, beq_iff_eq]
    exact take_length_prefix.mpr hdev
  unfold pathResolution pathResolution2
  rw [if_neg hlen, if_neg hproc, if_pos ⟨by decide, hdev'⟩, hcopy]

omit h in
theorem strip_pathOf {R : RootDir} {ℓ : Loc} (hv : ValidLoc ℓ) (hs : (pathOf ℓ).length < pathMax) :
    striprootdir (some R.path) (pathOf ℓ) = some (if R.path <+: pathOf ℓ then
      (if (pathOf ℓ).drop R.path.length = [] then ['/'] else (pathOf ℓ).drop R.path.length) else pathOf ℓ) := by
  have ha := isAbs_pathOf ℓ
  rw [isAbs, beq_iff_eq] at ha
  exact (striprootdir_eq R ⟨pathOf ℓ, ha, nul_not_mem_pathOf hv, hs⟩).trans (skiprootdir_eq R ⟨pathOf ℓ, ha, nul_not_mem_pathOf hv, hs⟩)

theorem strip_append : striprootdir (some R.path) (pathOf (rel ++ R.loc)) = some (pathOf rel) := by
  rw [strip_pathOf h.valid_append h.short_append, pathOf_append, if_pos (List.prefix_append _ _), List.drop_left]
  simp only [render_eq_nil]
  rfl

theorem strip_unlike : striprootdir (some R.path) (pathOf rel) = some (pathOf rel) := by
  have hlen := h.short
  rw [List.length_append] at hlen
  rw [strip_pathOf h.valid (by omega), if_neg h.unlike]

theorem chdir_plain (hproc : pathOf rel ≠ procRoot) (hdev : ¬ devFd <+: pathOf rel) (hd : fs.entry (rel ++ R.loc) = some .dir)
    {fuel : Nat} {s' : Process}
    (hrun : (Call.chdir (pathOf rel)).run fs fds re errno fuel ⟨some R.path, cwd⟩ = (.done (), s')) :
    s' = ⟨some R.path, rel ++ R.loc⟩ := by
  have hset : Settles (fun fuel => pathResolution (fs.host cwd fds) (some R.path) re fuel pathMax 0 errno atFdcwd (pathOf rel))
      (.done (pathOf (rel ++ R.loc))) := pathResolution_plain h (Nat.le_refl _) hproc hdev atFdcwd
  have hsteady := pathResolution2_steady (fs.host cwd fds) (some R.path) re pathMax 0 0 errno atFdcwd (pathOf rel)
  have hres : resolve fs fds re errno fuel ⟨some R.path, cwd⟩ (pathOf rel) = .done (pathOf (rel ++ R.loc)) := by
    refine hsteady.settles hset fun hu => ?_
    rw [Call.run, show resolve fs fds re errno fuel ⟨some R.path, cwd⟩ (pathOf rel) = .unfinished from hu] at hrun
    cases hrun
  have hlook : fs.lookup cwd true (pathOf (rel ++ R.loc)) = .ok (rel ++ R.loc) := by
    have hren : pathOf (rel ++ R.loc) = render (rel ++ R.loc) := if_neg (by simp [R.ne_nil])
    have hw : fs.tree.walk (hostRules true) maxSymlinks [] (parse (render (rel ++ R.loc)) ++ []) =
        fs.tree.walk (hostRules true) maxSymlinks (rel ++ R.loc) [] :=
      walk_render h.valid_append (FileSystem.clear_of_dir hd) (by rw [FileSystem.node_tree, hd]; rfl)
    rw [List.append_nil, ← hren, DirTree.walk_nil] at hw
    rw [FileSystem.lookup, if_neg (pathOf_ne_nil _), if_neg (Nat.not_le.mpr h.short_append), isAbs_pathOf, if_pos rfl, hw]
    rfl
  have hnext : nextChdir fs ⟨some R.path, cwd⟩ (pathOf (rel ++ R.loc)) = .ok ⟨some R.path, rel ++ R.loc⟩ := by
    simp only [nextChdir, hlook, hd, bind, Except.bind]
  have hcwd : (fs.host (rel ++ R.loc) fds).getcwd = .ok (pathOf (rel ++ R.loc)) := if_pos h.short_append
  have hin : strleq (pathOf (rel ++ R.loc)) (getrootdir (some R.path)) = true := by
    rw [getrootdir, Option.getD_some, strleq_iff R.path_short, pathOf_append]
    exact List.prefix_append _ _
  simp only [Call.run, hres, hnext, chrootdir, hcwd, hin, if_true, Prod.mk.injEq] at hrun
  exact hrun.2.symm

omit h in
/-- **Root added, then removed.** Path resolution of a clean path and `__striprootdir` give the path
back, but for `/proc/1/root`; and so do `chdir` to a directory and `getcwd`, but for a path that names a
descriptor. -/
theorem root_added_removed (h : InChrootPath fs R re rel) (hproc : pathOf rel ≠ procRoot) (hbuf : pathMax ≤ bufsiz) (dfd : Int) :
    (∃ q, Settles (fun fuel => pathResolution (fs.host cwd fds) (some R.path) re fuel bufsiz atflags errno dfd (pathOf rel))
      (.done q) ∧ striprootdir (some R.path) q = some (pathOf rel)) ∧
    (¬ devFd <+: pathOf rel → fs.entry (rel ++ R.loc) = some .dir → ∀ fuel s',
      (Call.chdir (pathOf rel)).run fs fds re errno fuel ⟨some R.path, cwd⟩ = (.done (), s') →
        getcwd fs fds s' = .ok (pathOf rel)) := by
  constructor
  · by_cases hdev : devFd <+: pathOf rel
    · have hlen := h.short
      rw [List.length_append] at hlen
      exact ⟨_, ⟨0, fun _ => pathResolution_devFd hbuf (by omega) hdev dfd _⟩, strip_unlike h⟩
    · exact ⟨_, pathResolution_plain h hbuf hproc hdev dfd, strip_append h⟩
  · intro hdev hd fuel s' hrun
    rw [chdir_plain h hproc hdev hd hrun]
    have hcwd : (fs.host (rel ++ R.loc) fds).getcwd = .ok (pathOf (rel ++ R.loc)) := if_pos h.short_append
    simp only [getcwd, hcwd, strip_append h, bind, Except.bind]

end

def usrLib : FileSystem := .ofList
  [([['r']], .dir), ([['u', 's', 'r'], ['r']], .dir), ([['l', 'i', 'b'], ['u', 's', 'r'], ['r']], .dir), ([['t']], .dir)] (by decide)

def libLoc : Loc := [['l', 'i', 'b'], ['u', 's', 'r']]

theorem usrLib_path : InChrootPath usrLib rootR none libLoc := ⟨by decide, by decide, by decide, by decide, by decide⟩

theorem usrLib_chdir : ∃ fuel, (Call.chdir (pathOf libLoc)).run usrLib (fun _ => none) none none fuel
    ⟨some rootR.path, [['t']]⟩ = (.done (), ⟨some rootR.path, libLoc ++ rootR.loc⟩) := by
  have hset : Settles (fun fuel => resolve usrLib (fun _ => none) none none fuel ⟨some rootR.path, [['t']]⟩ (pathOf libLoc))
      (.done (pathOf (libLoc ++ rootR.loc))) :=
    pathResolution_plain usrLib_path (Nat.le_refl _) (by decide) (by decide) atFdcwd
  obtain ⟨n, hn⟩ := hset
  refine ⟨n, ?_⟩
  simp only [Call.run]
  rw [show resolve usrLib (fun _ => none) none none n ⟨some rootR.path, [['t']]⟩ (pathOf libLoc) = .done _ from hn 0]
  rfl

/-- A process outside of the chroot asks for a file that does not exist, and goes to `/usr/lib`. -/
theorem root_added_removed_usrLib : (∃ q, Settles (fun fuel => pathResolution (usrLib.host [['t']] fun _ => none)
      (some rootR.path) none fuel pathMax atSymlinkNofollow none atFdcwd (pathOf (['x'] :: libLoc))) (.done q) ∧
      striprootdir (some rootR.path) q = some (pathOf (['x'] :: libLoc))) ∧
    ∃ fuel s', (Call.chdir (pathOf libLoc)).run usrLib (fun _ => none) none none fuel ⟨some rootR.path, [['t']]⟩ = (.done (), s') ∧
      getcwd usrLib (fun _ => none) s' = .ok (pathOf libLoc) := by
  constructor
  · exact (root_added_removed ⟨by decide, by decide, by decide, by decide, by decide⟩ (by decide) (Nat.le_refl _) atFdcwd).1
  · have hboth : (∃ q, Settles (fun fuel => pathResolution (usrLib.host [['t']] fun _ => none) (some rootR.path) none fuel pathMax 0
        none atFdcwd (pathOf libLoc)) (.done q) ∧ striprootdir (some rootR.path) q = some (pathOf libLoc)) ∧ _ :=
      root_added_removed usrLib_path (by decide) (Nat.le_refl _) atFdcwd
    obtain ⟨fuel, hrun⟩ := usrLib_chdir
    exact ⟨fuel, _, hrun, hboth.2 (by decide) (by decide) fuel _ hrun⟩

def procLoc : Loc := [['r', 'o', 'o', 't'], ['1'], ['p', 'r', 'o', 'c']]

def fdLoc : Loc := [['3'], ['f', 'd'], ['d', 'e', 'v']]

def descriptors : FileSystem := .ofList
  [([['r']], .dir), ([['d', 'e', 'v'], ['r']], .dir), ([['f', 'd'], ['d', 'e', 'v'], ['r']], .dir),
    (fdLoc ++ [['r']], .dir), ([['d', 'e', 'v']], .dir), ([['f', 'd'], ['d', 'e', 'v']], .link ['/', 'x']),
    ([['x']], .dir), ([['3'], ['x']], .dir)] (by decide)

/-- `/proc/1/root` is resolved to the root directory of the chroot, whatever is there, and `/dev/fd/3`
leads to the descriptor of the host. -/
theorem root_added_removed_magic : (InChrootPath beside rootR none procLoc ∧
      Settles (fun fuel => pathResolution (beside.host [] fun _ => none) (some rootR.path) none fuel pathMax 0 none atFdcwd
        (pathOf procLoc)) (.done ['/']) ∧
      striprootdir (some rootR.path) ['/'] ≠ some (pathOf procLoc)) ∧
    InChrootPath descriptors rootR none fdLoc ∧ descriptors.entry (fdLoc ++ rootR.loc) = some .dir ∧
      (Call.chdir (pathOf fdLoc)).run descriptors (fun _ => none) none none 0 ⟨some rootR.path, []⟩ =
        (.done (), ⟨none, [['3'], ['x']]⟩) ∧
      getcwd descriptors (fun _ => none) ⟨none, [['3'], ['x']]⟩ = .ok ['/', 'x', '/', '3'] :=
  ⟨⟨⟨by decide, by decide, by decide, by decide, by decide⟩, ⟨0, fun _ => rfl⟩, by decide⟩,
    ⟨by decide, by decide, by decide, by decide, by decide⟩, rfl, rfl, rfl⟩

end Iamroot
