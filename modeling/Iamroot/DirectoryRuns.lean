import Iamroot.Directory

/-!
# Directories changed by the guest

A guest that makes, removes and renames entries through the library leaves the
file system of the host as it would have left it in a kernel that has changed
the root, and gets the same results, as long as its paths are such that the
library resolves them. What lies outside the root directory stays as it is.
-/

namespace Iamroot

open FileTree

/-! ## The paths of a call -/

section
variable (fs : FileSystem) (R : RootDir) (re : Option (Str → Bool)) (cwd : Loc) (fds : Int → Option Loc)

/-- The path of the guest, which comes to `q` below the root directory. -/
structure PathIn (dfd : Int) (p q : Str) : Prop where
  given : ∃ b, Given fs R fds dfd p q b
  outside : ¬ R.path <+: p
  descriptor : isAbs p = false → 0 ≤ dfd
  ne_nil : p ≠ []
  noNul : nul ∉ p
  magic : p ≠ procRoot ∧ ¬ devFd <+: p
  kept : ignore re p = false
  short : (R.path ++ q).length < pathMax

/-- The links are followed, without `..` at the root directory, to a place that is not ignored. -/
structure Followed (dfd : Int) (p q : Str) (ℓ : Loc) : Prop extends PathIn fs R re fds dfd p q where
  walk : ∃ k, fs.tree.walk (chrootRules R.loc true) (symloopMax - 1) R.loc (parse q) = .ok (ℓ, k)
  unclamped : fs.tree.Along (chrootRules R.loc true) (chrootRules R.loc true).Unclamped (symloopMax - 1) R.loc (parse q)
  fits : FitsPathMax fs R cwd q
  shown : ignore re ((pathOf ℓ).drop R.path.length) = false

structure Named (dfd : Int) (p d n : Str) : Prop extends PathIn fs R re fds dfd p (d ++ '/' :: n) where
  dir : d = [] ∨ isAbs d = true
  name : ValidName n
  below : ignore re (d ++ '/' :: n) = false

/-- On the way there is neither `..` at the root directory nor a link with an absolute target. -/
structure Untouched (dfd : Int) (p d n : Str) : Prop extends Named fs R re fds dfd p d n where
  calm : fs.tree.Along (chrootRules R.loc false) (fun ℓ cs => (chrootRules R.loc false).Unclamped ℓ cs ∧
    fs.tree.NoJump (chrootRules R.loc false) ℓ cs) maxSymlinks R.loc (parse (d ++ '/' :: n))

/-- The way leads to a directory, and each `..` on it takes back the name of a directory. -/
structure Shortened (dfd : Int) (p d n : Str) (v : Loc × Nat) : Prop extends Named fs R re fds dfd p d n where
  walk : fs.tree.walk (chrootRules R.loc true) maxSymlinks R.loc (parse d) = .ok v
  isDir : fs.entry v.1 = some .dir
  calm : fs.tree.Along (chrootRules R.loc true) (DirTree.Ahead (Calm fs R)) maxSymlinks R.loc (parse d)
  cancels : Cancels fs R [] (parse d)

end

section
variable {fs : FileSystem} {R : RootDir} {re : Option (Str → Bool)} {cwd : Loc} {fds : Int → Option Loc}
  {atflags prflags : Word} {errno : Option Errno} {dfd : Int} {p q d n : Str} {ℓ : Loc}

theorem PathIn.length_lt (h : PathIn fs R re fds dfd p q) : p.length < pathMax := by
  have hs := h.short
  obtain ⟨b, hb⟩ := h.given
  rw [List.length_append] at hs
  cases hb with
  | abs ha hp => omega
  | again _ hp => exact absurd ⟨q, hp.symm⟩ h.outside
  | dir rel ha hd hf he =>
    rw [List.length_append, List.length_cons] at hs
    omega

theorem PathIn.ordinary (h : PathIn fs R re fds dfd p q) (prflags : Word) : Ordinary re prflags p :=
  ⟨h.length_lt, fun _ => h.magic, fun _ => h.kept⟩

theorem PathIn.abs (h : PathIn fs R re fds dfd p q) : q = [] ∨ isAbs q = true := by
  obtain ⟨b, hb⟩ := h.given
  cases hb with
  | abs ha hp => exact .inr ha
  | again _ hp => exact absurd ⟨q, hp.symm⟩ h.outside
  | dir rel ha hd hf he =>
    by_cases hr : rel = []
    · rw [hr]
      exact .inr rfl
    · refine .inr ?_
      obtain ⟨t, ht⟩ := render_head hr
      rw [ht]
      rfl

theorem PathIn.noNul_text (h : PathIn fs R re fds dfd p q) : nul ∉ q := by
  obtain ⟨b, hb⟩ := h.given
  exact hb.noNul h.noNul

theorem PathIn.finish (h : PathIn fs R re fds dfd p q) : ∃ b, ∀ fuel atflags prflags,
    pathResolution2 (fs.host cwd fds) (some R.path) re fuel pathMax atflags prflags errno dfd p =
      finishBuf (fs.host cwd fds) (some R.path) re fuel pathMax atflags prflags errno b (R.path ++ q) := by
  obtain ⟨b, hb⟩ := h.given
  cases hb with
  | abs ha hp =>
    exact ⟨false, fun fuel atflags prflags => pathResolution2_abs (h.ordinary prflags) (Nat.le_refl _) ha hp h.short⟩
  | again _ hp => exact absurd ⟨q, hp.symm⟩ h.outside
  | dir rel ha hd hf he =>
    have hbuf : pathOf (rel ++ R.loc) ++ '/' :: p = R.path ++ (render rel ++ '/' :: p) := by
      rw [pathOf_append, List.append_assoc]
    have hs : (pathOf (rel ++ R.loc) ++ '/' :: p).length < pathMax := by
      rw [hbuf]
      exact h.short
    have hdir : (pathOf (rel ++ R.loc)).length < pathMax := by
      rw [List.length_append] at hs
      omega
    have hneg : ¬ dfd < 0 := Int.not_lt.mpr (h.descriptor ha)
    have hfp : (fs.host cwd fds).fpath dfd = .ok (pathOf (rel ++ R.loc)) := by
      simp only [FileSystem.host, if_neg hd, if_neg hneg, hf, if_pos hdir]
    refine ⟨streq R.path (pathOf (rel ++ R.loc)), fun fuel atflags prflags => ?_⟩
    unfold pathResolution2
    rw [(h.ordinary prflags).guards, if_neg (by rw [ha]; decide), if_pos hd, hfp]
    simp only [isAbs_pathOf, Bool.true_eq_false, if_false, rootOf_root, snprintf, if_pos hs]
    rw [hbuf]

/-- Where the kernel starts in the changed root, it may as well start at the root directory. -/
theorem PathIn.lookupIn (h : PathIn fs R re fds dfd p q) (hR : fs.entry R.loc = some .dir) (follow : Bool) :
    fs.lookupIn R.loc (dirOf cwd fds dfd) follow p =
      walked (fs.tree.walk (chrootRules R.loc follow) maxSymlinks R.loc (parse q)) := by
  rw [FileSystem.lookupIn, if_neg h.ne_nil, if_neg (Nat.not_le.mpr h.length_lt)]
  obtain ⟨b, hb⟩ := h.given
  cases hb with
  | abs ha hp => rw [if_pos ha]
  | again _ hp => exact absurd ⟨q, hp.symm⟩ h.outside
  | dir rel ha hd hf he =>
    have hrel : ValidLoc rel := fun c hc => fs.valid (by rw [he]; simp) c (List.mem_append_left _ hc)
    have hclear : fs.tree.Clear (rel.reverse.reverse ++ R.loc) := by
      rw [List.reverse_reverse]
      exact FileSystem.clear_of_dir he
    have hnames : fs.tree.walk (chrootRules R.loc follow) maxSymlinks R.loc (rel.reverse.map .name ++ parse p) =
        fs.tree.walk (chrootRules R.loc follow) maxSymlinks (rel.reverse.reverse ++ R.loc) (parse p) := by
      refine DirTree.walk_names hclear (.inr ?_)
      rw [List.reverse_reverse, FileSystem.node_tree, he]
      simp
    rw [if_neg (by rw [ha]; decide), dirOf, if_neg hd, hf, Option.getD_some, parse_append, parse_render hrel, List.cons_append,
      DirTree.walk_go (move_empty (FileSystem.isFile_of_dir hR)), hnames, List.reverse_reverse]

/-! ## Links that are followed -/

theorem tail_of_reached (h : fs.tree.Reached ℓ []) : fs.entry ℓ.tail = some .dir := by
  have hentry : ∀ {m : Loc}, fs.tree.node m = some .dir → fs.entry m = some .dir := by
    intro m hm
    obtain ⟨e, he, hd⟩ := Option.map_eq_some_iff.mp hm
    cases e with
    | dir => exact he
    | file | link t => cases hd
  rcases h with ⟨hne, -⟩ | ⟨-, hd⟩
  · cases ℓ with
    | nil => exact fs.root_dir
    | cons x ℓ => exact hentry (fs.tree.parent_dir hne)
  · exact hentry hd

theorem Canonical.lookup (hc : Canonical fs ℓ) (hd : fs.entry ℓ.tail = some .dir) (cwd : Loc) (follow : Bool) :
    fs.lookup cwd follow (pathOf ℓ) = .ok ℓ := by
  rw [FileSystem.lookup, if_neg (pathOf_ne_nil ℓ), if_neg (Nat.not_le.mpr hc.short), isAbs_pathOf, if_pos rfl,
    parse_pathOf hc.valid, DirTree.walk_go (move_empty (FileSystem.isFile_of_dir fs.root_dir))]
  cases ℓ with
  | nil =>
    rw [if_pos rfl, DirTree.walk_go (move_empty (FileSystem.isFile_of_dir fs.root_dir)), DirTree.walk_nil]
    rfl
  | cons x ℓ =>
    have hd : fs.entry ℓ = some .dir := hd
    have hcl : fs.tree.Clear (ℓ.reverse.reverse ++ []) := by
      rw [List.reverse_reverse, List.append_nil]
      exact hc.clear.1
    have hnames : fs.tree.walk (hostRules follow) maxSymlinks [] (ℓ.reverse.map .name ++ [.name x]) =
        fs.tree.walk (hostRules follow) maxSymlinks (ℓ.reverse.reverse ++ []) [.name x] := by
      refine DirTree.walk_names hcl (.inr ?_)
      rw [List.reverse_reverse, List.append_nil, FileSystem.node_tree, hd]
      simp
    have hlast : fs.tree.move (hostRules follow) ℓ (.name x) [] = .go (x :: ℓ) := by
      by_cases hx : fs.tree.node (x :: ℓ) = none
      · rw [DirTree.move_name_none hx (FileSystem.isFile_of_dir hd)]
        simp
      · exact DirTree.move_name_clear hx hc.clear.2.2
    rw [if_neg (by simp), List.reverse_cons, List.map_append, List.map_singleton, hnames, List.reverse_reverse,
      List.append_nil, DirTree.walk_go hlast, DirTree.walk_nil]
    rfl

theorem Followed.beneath (h : Followed fs R re cwd fds dfd p q ℓ) : R.loc <:+ ℓ := by
  obtain ⟨k, hw⟩ := h.walk
  exact DirTree.walk_beneath (r := chrootRules R.loc true) rfl List.suffix_rfl hw

theorem Followed.lookupIn (h : Followed fs R re cwd fds dfd p q ℓ) (hR : fs.entry R.loc = some .dir) :
    fs.lookupIn R.loc (dirOf cwd fds dfd) true p = .ok ℓ := by
  obtain ⟨k, hw⟩ := h.walk
  have hmore : fs.tree.walk (chrootRules R.loc true) maxSymlinks R.loc (parse q) = .ok (ℓ, k + 1) := DirTree.walk_more 1 hw
  rw [h.toPathIn.lookupIn hR, hmore]
  rfl

theorem Followed.resolved (h : Followed fs R re cwd fds dfd p q ℓ) (hR : fs.entry R.loc = some .dir) :
    Iamroot.resolved (fs.seenTree (some R.path)) cwd (pathSanitize (R.path ++ q)) = some (.ok (.ofLoc ℓ)) ∧ Canonical fs ℓ := by
  obtain ⟨k, hw⟩ := h.walk
  exact resolved_root hR h.abs h.noNul_text rfl rfl hw h.unclamped h.fits

theorem Followed.settles (hattr : fs.NoAttr) (hR : fs.entry R.loc = some .dir) (h : Followed fs R re cwd fds dfd p q ℓ) :
    Settles (fun fuel => pathResolution2 (fs.host cwd fds) (some R.path) re fuel pathMax 0 0 errno dfd p) (.done (pathOf ℓ)) := by
  obtain ⟨b, hb⟩ := h.finish
  obtain ⟨hres, hc⟩ := h.resolved hR
  obtain ⟨rel, hrel⟩ := h.beneath
  have hin : strleq (pathOf ℓ) R.path = true := by
    rw [strleq_iff R.path_short, ← hrel, pathOf_append]
    exact List.prefix_append _ _
  have hℓ : ℓ = if b = true ∧ strleq (pathOf ℓ) R.path = false then R.loc else ℓ := by
    rw [hin, if_neg]
    intro h
    cases h.2
  exact Settles.congr (fun fuel => hb fuel 0 0)
    (finishBuf_followed hattr hR rfl (Nat.le_refl _) h.short h.noNul_text hres hc hℓ fun _ _ => h.shown)

/-- The host finds what the kernel would find in the changed root. -/
theorem Followed.lookup (h : Followed fs R re cwd fds dfd p q ℓ) (hR : fs.entry R.loc = some .dir) (cwd' : Loc) (follow : Bool) :
    fs.lookup cwd' follow (pathOf ℓ) = .ok ℓ := by
  obtain ⟨k, hw⟩ := h.walk
  have htop : fs.tree.node R.loc = some .dir := by
    rw [FileSystem.node_tree, hR]
    rfl
  have hend : fs.tree.Reached ℓ [] := DirTree.walk_ends (r := chrootRules R.loc true) rfl htop (DirTree.reached_dir htop _) hw
  exact (h.resolved hR).2.lookup (tail_of_reached hend) cwd' follow

/-! ## Links that are left to the kernel -/

theorem parse_named (d : Str) (hn : ValidName n) : parse (d ++ '/' :: n) = parse d ++ [.name n] := by
  rw [parse_append, parse_of_no_slash hn.2.1, compOf_name hn]

theorem Named.settles (h : Named fs R re fds dfd p d n) (hf : followSymlink atflags = false) :
    Settles (fun fuel => pathResolution2 (fs.host cwd fds) (some R.path) re fuel pathMax atflags prflags errno dfd p)
      (.done (if allowWalkAlong prflags then pathOf (shorten R.loc (parse (d ++ '/' :: n))) else R.path ++ (d ++ '/' :: n))) := by
  obtain ⟨b, hb⟩ := h.finish
  have hsan := sanitize_entry R d h.name
  refine Settles.congr (fun fuel => hb fuel atflags prflags) ?_
  have hend : Settles (fun fuel => finishBuf (fs.host cwd fds) (some R.path) re fuel pathMax atflags prflags errno b
      (R.path ++ (d ++ '/' :: n))) (.done (if allowWalkAlong prflags then pathOf (shorten R.loc (parse (d ++ '/' :: n)))
        else pathSanitize (R.path ++ (d ++ '/' :: n)))) := by
    refine finishBuf_unfollowed hf (Nat.le_refl _) h.abs h.noNul_text h.short fun _ => ?_
    rw [hsan, List.drop_left]
    exact h.below
  rwa [hsan] at hend

theorem lookup_below (hR : fs.entry R.loc = some .dir) (hq : q = [] ∨ isAbs q = true) (hl : (R.path ++ q).length < pathMax)
    (cwd : Loc) (follow : Bool) :
    fs.lookup cwd follow (R.path ++ q) = walked (fs.tree.walk (hostRules follow) maxSymlinks R.loc (parse q)) := by
  have hdir : fs.tree.node R.loc = some .dir := by
    rw [FileSystem.node_tree, hR]
    rfl
  rw [FileSystem.lookup, if_neg (by simp [R.path_ne_nil]), if_neg (Nat.not_le.mpr hl), isAbs_path_append, if_pos rfl,
    walk_root (FileSystem.clear_of_dir hR) hdir hq]

theorem Untouched.lookup (h : Untouched fs R re fds dfd p d n) (hR : fs.entry R.loc = some .dir) (cwd cwd' : Loc) :
    fs.lookup cwd' false (R.path ++ (d ++ '/' :: n)) = fs.lookupIn R.loc (dirOf cwd fds dfd) false p := by
  have hwalk : fs.tree.walk (hostRules false) maxSymlinks R.loc (parse (d ++ '/' :: n)) =
      fs.tree.walk (chrootRules R.loc false) maxSymlinks R.loc (parse (d ++ '/' :: n)) :=
    DirTree.walk_unrooted rfl rfl rfl (h.calm.mono fun _ _ h => h.1) (h.calm.mono fun _ _ h => h.2)
  rw [lookup_below hR h.toPathIn.abs h.short, hwalk, h.toPathIn.lookupIn hR]

theorem move_entry {r : Rules Str} (hf : r.follow = false) {m : Loc} (hd : fs.entry m = some .dir) (n : Str) :
    fs.tree.move r m (.name n) [] = .go (n :: m) := by
  by_cases hn : fs.tree.node (n :: m) = none
  · rw [DirTree.move_name_none hn (FileSystem.isFile_of_dir hd)]
    simp
  · obtain ⟨x, hx⟩ := Option.ne_none_iff_exists'.mp hn
    cases x <;> simp [DirTree.move, hx, hf]

theorem Shortened.lookupIn {v : Loc × Nat} (h : Shortened fs R re fds dfd p d n v) (hR : fs.entry R.loc = some .dir) (cwd : Loc) :
    fs.lookupIn R.loc (dirOf cwd fds dfd) false p = .ok (n :: v.1) := by
  have hv : fs.tree.node v.1 ≠ none := by simp [FileSystem.node_tree, h.isDir]
  have hgo : fs.tree.walk (chrootRules R.loc false) maxSymlinks R.loc (parse d ++ [.name n]) =
      fs.tree.walk (chrootRules R.loc false) v.2 v.1 [.name n] := by
    refine DirTree.walk_then (r := chrootRules R.loc true) ?_ ?_ ?_ ?_ hv ?_ h.walk
    exacts [rfl, rfl, rfl, rfl, by simp]
  rw [h.toPathIn.lookupIn hR, parse_named d h.name, hgo, DirTree.walk_go (move_entry rfl h.isDir n), DirTree.walk_nil]
  rfl

theorem Shortened.lookup {v : Loc × Nat} (h : Shortened fs R re fds dfd p d n v) (hR : fs.entry R.loc = some .dir) (cwd : Loc) :
    fs.lookup cwd false (pathOf (shorten R.loc (parse (d ++ '/' :: n)))) = .ok (n :: v.1) := by
  have hv : fs.tree.node v.1 ≠ none := by simp [FileSystem.node_tree, h.isDir]
  have hstart : fs.tree.walk (chrootRules R.loc true) maxSymlinks R.loc (inside []) = .ok (R.loc, maxSymlinks) :=
    DirTree.walk_nil _ _
  obtain ⟨hw, hal⟩ := walk_cancels hR hv (node_rootDir hR) hstart (DirTree.along_nil.mpr trivial) h.walk h.calm h.cancels
  have hsh : shorten R.loc (parse (d ++ '/' :: n)) = (n :: shorten [] (parse d)) ++ R.loc := by
    have h0 : shorten R.loc (parse d) = shorten [] (parse d) ++ R.loc := shorten_inside h.cancels
    rw [parse_named d h.name, shorten_append, h0]
    rfl
  obtain ⟨-, hval, hshort⟩ := resolved_blank (R := R) h.toPathIn.abs h.noNul_text h.short cwd
  rw [hsh] at hval hshort
  rw [pathOf_append] at hshort
  have hvn : ValidLoc (n :: shorten [] (parse d)) := fun c hc => hval c (List.mem_append_left _ hc)
  rw [hsh, pathOf_append, lookup_below hR (.inr (isAbs_render (by simp))) hshort, parse_render hvn,
    DirTree.walk_go (move_empty (FileSystem.isFile_of_dir hR)), List.reverse_cons, List.map_append]
  have hentry : fs.tree.walk (hostRules false) maxSymlinks R.loc (inside (shorten [] (parse d)) ++ [.name n]) =
      .ok (n :: v.1, v.2) := walk_entry h.isDir hw hal n
  rw [inside] at hentry
  rw [List.map_singleton, hentry]
  rfl

/-! ## The names at the end -/

theorem Named.last (h : Named fs R re fds dfd p d n) : (parse p).getLast? = some (.name n) := by
  have hq : (parse (d ++ '/' :: n)).getLast? = some (.name n) := by
    rw [parse_named d h.name]
    simp
  obtain ⟨b, hb⟩ := h.given
  generalize htext : d ++ '/' :: n = text at hb hq
  cases hb with
  | abs ha hp => exact hq
  | again _ hp => exact absurd ⟨_, hp.symm⟩ h.outside
  | dir rel ha hd hf he => rwa [parse_append, List.getLast?_append_of_ne_nil _ (parse_ne_nil p)] at hq

theorem FileSystem.nameIn_of_last {T : Loc} (h : (parse p).getLast? = some (.name n)) :
    fs.nameIn T cwd p = fs.lookupIn T cwd false p := by
  rw [FileSystem.nameIn, h, if_neg (by simp)]

theorem last_below (R : RootDir) (d : Str) (hn : ValidName n) : (parse (R.path ++ (d ++ '/' :: n))).getLast? = some (.name n) := by
  have happ : R.path ++ (d ++ '/' :: n) = (R.path ++ d) ++ '/' :: n := (List.append_assoc _ _ _).symm
  rw [happ, parse_named _ hn]
  simp

theorem last_shortened (R : RootDir) (d : Str) (hn : ValidName n) :
    (parse (pathOf (shorten R.loc (parse (d ++ '/' :: n))))).getLast? = some (.name n) := by
  have hsh : shorten R.loc (parse (d ++ '/' :: n)) = n :: shorten R.loc (parse d) := by
    rw [parse_named d hn, shorten_append]
    rfl
  rw [hsh, pathOf, if_neg (by simp), render_cons, parse_named _ hn]
  simp

theorem Named.beneath (h : Named fs R re fds dfd p d n) (hR : fs.entry R.loc = some .dir)
    (hl : fs.lookupIn R.loc (dirOf cwd fds dfd) false p = .ok ℓ) : ∃ m, m :: R.loc <:+ ℓ := by
  rw [h.toPathIn.lookupIn hR, parse_named d h.name] at hl
  cases hw : fs.tree.walk (chrootRules R.loc false) maxSymlinks R.loc (parse d ++ [.name n]) with
  | error e =>
    rw [hw] at hl
    cases hl
  | ok v =>
    rw [hw] at hl
    cases hl
    obtain ⟨m, hm, hs⟩ := DirTree.walk_last (r := chrootRules R.loc false) rfl rfl List.suffix_rfl hw
    obtain ⟨k, hk⟩ := FileSystem.below_cons n hs
    exact ⟨k, hm ▸ hk⟩

end

/-! ## One call -/

structure Ask where
  cwd : Loc
  fds : Int → Option Loc
  errno : Option Errno
  call : DirCall

section
variable (R : RootDir) (re : Option (Str → Bool)) (fuel : Nat) (fs : FileSystem)

noncomputable def Ask.kernel (a : Ask) : Except DirError FileSystem := a.call.run fs R.loc a.cwd a.fds

/-- The call through the library: its paths are resolved, and the host makes it. -/
noncomputable def Ask.library (a : Ask) : Ret (Except DirError FileSystem) :=
  (a.call.next fun atflags prflags dfd path =>
    pathResolution2 (fs.host a.cwd a.fds) (some R.path) re fuel pathMax atflags prflags a.errno dfd path).bind fun c =>
      .done (c.run fs [] a.cwd a.fds)

/-- What is asked of the paths. The last name of a directory that is made is no link. -/
def Ask.Right (a : Ask) : Prop :=
  match a.call with
  | .mkdirat dfd path => ∃ q ℓ, Followed fs R re a.cwd a.fds dfd path q ℓ ∧
    fs.lookupIn R.loc (dirOf a.cwd a.fds dfd) false path = .ok ℓ
  | .openat dfd path => ∃ q ℓ, Followed fs R re a.cwd a.fds dfd path q ℓ
  | .symlinkat _ dfd path => ∃ d n v, Shortened fs R re a.fds dfd path d n v
  | .unlinkat dfd path atflags => atflags &&& atSymlinkFollow = 0 ∧ ∃ d n, Untouched fs R re a.fds dfd path d n
  | .rmdir path => ∃ d n, Untouched fs R re a.fds atFdcwd path d n
  | .remove path => ∃ d n v, Shortened fs R re a.fds atFdcwd path d n v
  | .renameat olddfd oldpath newdfd newpath =>
    (∃ d n, Untouched fs R re a.fds olddfd oldpath d n) ∧ ∃ d n, Untouched fs R re a.fds newdfd newpath d n
  | .renameat2 olddfd oldpath newdfd newpath _ =>
    (∃ d n v, Shortened fs R re a.fds olddfd oldpath d n v) ∧ ∃ d n v, Shortened fs R re a.fds newdfd newpath d n v

end

section
variable {R : RootDir} {re : Option (Str → Bool)} {fs fs' : FileSystem} {a : Ask}

theorem followSymlink_nofollow : followSymlink atSymlinkNofollow = false := by decide

theorem followSymlink_or {atflags : Word} (h : atflags &&& atSymlinkFollow = 0) :
    followSymlink (atflags ||| atSymlinkNofollow) = false := by
  have h1 : (atflags ||| atSymlinkNofollow) &&& atSymlinkFollow = 0 := by
    rw [BitVec.and_or_distrib_right, h]
    rfl
  have h2 : (atflags ||| atSymlinkNofollow) &&& atSymlinkNofollow ≠ 0 := by
    intro h0
    have hbit := congrArg (fun w : Word => w.getLsbD 8) h0
    simp [atSymlinkNofollow] at hbit
  unfold followSymlink
  rw [h1]
  simpa using h2

structure Swapped (fs : FileSystem) (R : RootDir) (re : Option (Str → Bool)) (a : Ask) (atflags prflags : Word) (dfd : Int)
    (p buf : Str) : Prop where
  settles : Settles (fun fuel => pathResolution2 (fs.host a.cwd a.fds) (some R.path) re fuel pathMax atflags prflags a.errno
    dfd p) (.done buf)
  lookup : fs.lookupIn [] (dirOf a.cwd a.fds dfd) false buf = fs.lookupIn R.loc (dirOf a.cwd a.fds dfd) false p
  name : fs.nameIn [] (dirOf a.cwd a.fds dfd) buf = fs.nameIn R.loc (dirOf a.cwd a.fds dfd) p

theorem Untouched.swapped {dfd : Int} {p d n : Str} {atflags : Word} (h : Untouched fs R re a.fds dfd p d n)
    (hR : fs.entry R.loc = some .dir) (hf : followSymlink atflags = false) :
    ∃ buf, Swapped fs R re a atflags prNowalkalong dfd p buf := by
  have hlook : fs.lookupIn [] (dirOf a.cwd a.fds dfd) false (R.path ++ (d ++ '/' :: n)) =
      fs.lookupIn R.loc (dirOf a.cwd a.fds dfd) false p := h.lookup hR a.cwd (dirOf a.cwd a.fds dfd)
  refine ⟨R.path ++ (d ++ '/' :: n), h.toNamed.settles hf, hlook, ?_⟩
  rw [FileSystem.nameIn_of_last (last_below R d h.name), FileSystem.nameIn_of_last h.toNamed.last, hlook]

theorem Shortened.swapped {dfd : Int} {p d n : Str} {v : Loc × Nat} (h : Shortened fs R re a.fds dfd p d n v)
    (hR : fs.entry R.loc = some .dir) : ∃ buf, Swapped fs R re a atSymlinkNofollow 0 dfd p buf := by
  have hlook : fs.lookupIn [] (dirOf a.cwd a.fds dfd) false (pathOf (shorten R.loc (parse (d ++ '/' :: n)))) =
      fs.lookupIn R.loc (dirOf a.cwd a.fds dfd) false p :=
    (h.lookup hR (dirOf a.cwd a.fds dfd)).trans (h.lookupIn hR a.cwd).symm
  refine ⟨pathOf (shorten R.loc (parse (d ++ '/' :: n))), h.toNamed.settles (by decide), hlook, ?_⟩
  rw [FileSystem.nameIn_of_last (last_shortened R d h.name), FileSystem.nameIn_of_last h.toNamed.last, hlook]

/-- One call: the library has the host do what the kernel does in the changed root. -/
theorem Ask.settles (hattr : fs.NoAttr) (hR : fs.entry R.loc = some .dir) (h : a.Right R re fs) :
    Settles (fun fuel => a.library R re fuel fs) (.done (a.kernel R fs)) := by
  obtain ⟨cwd, fds, errno, call⟩ := a
  have hcall : ∀ {c' : DirCall}, Settles (fun fuel => call.next fun atflags prflags dfd path =>
        pathResolution2 (fs.host cwd fds) (some R.path) re fuel pathMax atflags prflags errno dfd path) (.done c') →
      c'.run fs [] cwd fds = call.run fs R.loc cwd fds →
      Settles (fun fuel => Ask.library R re fuel fs ⟨cwd, fds, errno, call⟩) (.done (Ask.kernel R fs ⟨cwd, fds, errno, call⟩)) := by
    intro c' hs he
    refine Settles.bind hs ?_
    rw [he]
    exact Settles.const _
  cases call with
  | mkdirat dfd path =>
    obtain ⟨q, ℓ, hfol, hlast⟩ := h
    refine hcall (Settles.bind (hfol.settles hattr hR) (Settles.const _)) ?_
    have hlook : fs.lookupIn [] (dirOf cwd fds dfd) false (pathOf ℓ) = .ok ℓ := hfol.lookup hR _ _
    rw [DirCall.run, DirCall.run, hlook, hlast]
  | openat dfd path =>
    obtain ⟨q, ℓ, hfol⟩ := h
    refine hcall (Settles.bind (hfol.settles hattr hR) (Settles.const _)) ?_
    have hlook : fs.lookupIn [] (dirOf cwd fds dfd) true (pathOf ℓ) = .ok ℓ := hfol.lookup hR _ _
    rw [DirCall.run, DirCall.run, hlook, hfol.lookupIn hR]
  | symlinkat string dfd path =>
    obtain ⟨d, n, v, hsh⟩ := h
    obtain ⟨buf, hbuf⟩ := hsh.swapped (a := ⟨cwd, fds, errno, .symlinkat string dfd path⟩) hR
    refine hcall (Settles.bind hbuf.settles (Settles.const _)) ?_
    rw [DirCall.run, DirCall.run, hbuf.name]
  | unlinkat dfd path atflags =>
    obtain ⟨hno, d, n, hun⟩ := h
    obtain ⟨buf, hbuf⟩ := hun.swapped (a := ⟨cwd, fds, errno, .unlinkat dfd path atflags⟩) hR (followSymlink_or hno)
    refine hcall (Settles.bind hbuf.settles (Settles.const _)) ?_
    rw [DirCall.run, DirCall.run, hbuf.name, hbuf.lookup]
  | rmdir path =>
    obtain ⟨d, n, hun⟩ := h
    obtain ⟨buf, hbuf⟩ := hun.swapped (a := ⟨cwd, fds, errno, .rmdir path⟩) hR followSymlink_nofollow
    refine hcall (Settles.bind hbuf.settles (Settles.const _)) ?_
    rw [DirCall.run, DirCall.run, hbuf.lookup]
  | remove path =>
    obtain ⟨d, n, v, hsh⟩ := h
    obtain ⟨buf, hbuf⟩ := hsh.swapped (a := ⟨cwd, fds, errno, .remove path⟩) hR
    refine hcall (Settles.bind hbuf.settles (Settles.const _)) ?_
    rw [DirCall.run, DirCall.run, hbuf.name]
  | renameat olddfd oldpath newdfd newpath =>
    obtain ⟨⟨d, n, hold⟩, d', n', hnew⟩ := h
    obtain ⟨buf, hbuf⟩ := hold.swapped (a := ⟨cwd, fds, errno, .renameat olddfd oldpath newdfd newpath⟩) hR followSymlink_nofollow
    obtain ⟨buf', hbuf'⟩ := hnew.swapped (a := ⟨cwd, fds, errno, .renameat olddfd oldpath newdfd newpath⟩) hR followSymlink_nofollow
    refine hcall (Settles.bind hbuf.settles (Settles.bind hbuf'.settles (Settles.const _))) ?_
    rw [DirCall.run, DirCall.run, hbuf.lookup, hbuf'.lookup]
  | renameat2 olddfd oldpath newdfd newpath flags =>
    obtain ⟨⟨d, n, v, hold⟩, d', n', v', hnew⟩ := h
    obtain ⟨buf, hbuf⟩ := hold.swapped (a := ⟨cwd, fds, errno, .renameat2 olddfd oldpath newdfd newpath flags⟩) hR
    obtain ⟨buf', hbuf'⟩ := hnew.swapped (a := ⟨cwd, fds, errno, .renameat2 olddfd oldpath newdfd newpath flags⟩) hR
    refine hcall (Settles.bind hbuf.settles (Settles.bind hbuf'.settles (Settles.const _))) ?_
    rw [DirCall.run, DirCall.run, hbuf.lookup, hbuf'.lookup]

/-- In the changed root a call changes nothing that does not lie below the root directory. -/
theorem Ask.inside (hR : fs.entry R.loc = some .dir) (h : a.Right R re fs) (hk : a.kernel R fs = .ok fs') :
    FileSystem.Inside R.loc fs fs' := by
  obtain ⟨cwd, fds, errno, call⟩ := a
  have hmade : ∀ {r : Except Errno Loc} {f : Loc → Except DirError FileSystem}, located r f = .ok fs' →
      ∃ ℓ, r = .ok ℓ ∧ f ℓ = .ok fs' := by
    intro r f hl
    cases r with
    | ok ℓ => exact ⟨ℓ, rfl, hl⟩
    | error e => cases hl
  cases call with
  | mkdirat dfd path =>
    obtain ⟨q, ℓ, hfol, hlast⟩ := h
    obtain ⟨ℓ', hl, hf⟩ := hmade hk
    cases hlast.symm.trans hl
    exact FileSystem.make_inside hR hfol.beneath hf
  | openat dfd path =>
    obtain ⟨q, ℓ, hfol⟩ := h
    obtain ⟨ℓ', hl, hf⟩ := hmade hk
    cases (hfol.lookupIn hR).symm.trans hl
    exact FileSystem.create_inside hR hfol.beneath hf
  | symlinkat string dfd path =>
    obtain ⟨d, n, v, hsh⟩ := h
    obtain ⟨ℓ, hl, hf⟩ := hmade (FileSystem.passed (FileSystem.passed hk))
    rw [FileSystem.nameIn_of_last hsh.toNamed.last] at hl
    obtain ⟨m, hm⟩ := hsh.toNamed.beneath hR hl
    exact FileSystem.make_inside hR ((List.suffix_cons m R.loc).trans hm) hf
  | unlinkat dfd path atflags =>
    obtain ⟨-, d, n, hun⟩ := h
    have hk : (if atflags = atRemovedir then located (fs.lookupIn R.loc (dirOf cwd fds dfd) false path) fs.rmdir
        else located (fs.nameIn R.loc (dirOf cwd fds dfd) path) fs.unlink) = .ok fs' := FileSystem.passed hk
    split at hk
    · obtain ⟨ℓ, hl, hf⟩ := hmade hk
      obtain ⟨m, hm⟩ := hun.toNamed.beneath hR hl
      exact FileSystem.rmdir_inside hm hf
    · obtain ⟨ℓ, hl, hf⟩ := hmade hk
      rw [FileSystem.nameIn_of_last hun.toNamed.last] at hl
      obtain ⟨m, hm⟩ := hun.toNamed.beneath hR hl
      exact FileSystem.unlink_inside hm hf
  | rmdir path =>
    obtain ⟨d, n, hun⟩ := h
    obtain ⟨ℓ, hl, hf⟩ := hmade hk
    obtain ⟨m, hm⟩ := hun.toNamed.beneath hR hl
    exact FileSystem.rmdir_inside hm hf
  | remove path =>
    obtain ⟨d, n, v, hsh⟩ := h
    obtain ⟨ℓ, hl, hf⟩ := hmade hk
    rw [FileSystem.nameIn_of_last hsh.toNamed.last] at hl
    obtain ⟨m, hm⟩ := hsh.toNamed.beneath hR hl
    split at hf
    · exact FileSystem.rmdir_inside hm hf
    · exact FileSystem.unlink_inside hm hf
  | renameat olddfd oldpath newdfd newpath =>
    obtain ⟨⟨d, n, hold⟩, d', n', hnew⟩ := h
    obtain ⟨src, hsrc, hf⟩ := hmade hk
    obtain ⟨dst, hdst, hf⟩ := hmade hf
    obtain ⟨m, hm⟩ := hold.toNamed.beneath hR hsrc
    obtain ⟨m', hm'⟩ := hnew.toNamed.beneath hR hdst
    exact FileSystem.rename_inside hm hm' hf
  | renameat2 olddfd oldpath newdfd newpath flags =>
    obtain ⟨⟨d, n, v, hold⟩, d', n', v', hnew⟩ := h
    obtain ⟨src, hsrc, hf⟩ := hmade hk
    obtain ⟨dst, hdst, hf⟩ := hmade hf
    obtain ⟨m, hm⟩ := hold.toNamed.beneath hR hsrc
    obtain ⟨m', hm'⟩ := hnew.toNamed.beneath hR hdst
    exact FileSystem.rename_inside hm hm' hf

end

/-! ## Runs -/

structure Session where
  fs : FileSystem
  results : List (Ret (Except DirError Unit))

def Session.after (s : Session) : Ret (Except DirError FileSystem) → Session
  | .done (.ok fs) => ⟨fs, s.results ++ [.done (.ok ())]⟩
  | .done (.error e) => ⟨s.fs, s.results ++ [.done (.error e)]⟩
  | .fail e => ⟨s.fs, s.results ++ [.fail e]⟩
  | .fault => ⟨s.fs, s.results ++ [.fault]⟩
  | .unfinished => ⟨s.fs, s.results ++ [.unfinished]⟩

section
variable {R : RootDir} {re : Option (Str → Bool)}

end

/-! ## A run -/

end Iamroot
