import Iamroot.ResolutionSpec

/-!
# Absolute paths in a chroot

A path that is looked up below the root directory, with links followed, is
resolved to where the kernel leads in a process with that root directory, as
long as `..` is not met there and the strings fit in their buffers.
-/

namespace Iamroot

open FileTree

section
variable {fs : FileSystem} {R : RootDir} {re : Option (Str → Bool)} {cwd : Loc} {fds : Int → Option Loc}
  {bufsiz : Nat} {atflags prflags : Word} {errno : Option Errno} {r : Rules Str} {n k : Nat} {ℓ : Loc} {p : Str}

/-- The strings that are built for the path `p` below the root directory are shorter than `PATH_MAX`. -/
def FitsPathMax (fs : FileSystem) (R : RootDir) (cwd : Loc) (p : Str) : Prop :=
  (R.path ++ p).length < pathMax ∧ (resolved (fs.seenTree (some R.path)) cwd (pathSanitize (R.path ++ p))).isSome = true

instance (fs : FileSystem) (R : RootDir) (cwd : Loc) (p : Str) : Decidable (FitsPathMax fs R cwd p) := by
  unfold FitsPathMax; infer_instance

theorem Canonical.rootDir (hR : fs.entry R.loc = some .dir) : Canonical fs R.loc where
  valid := R.valid
  clear := FileSystem.clear_of_dir hR
  short := by
    rw [pathOf, if_neg R.ne_nil]
    exact R.short

theorem pathOf_append (rel : Loc) (R : RootDir) : pathOf (rel ++ R.loc) = R.path ++ render rel := by
  rw [pathOf, if_neg (by simp [R.ne_nil]), render_append]
  rfl

theorem isAbs_path_append (R : RootDir) (p : Str) : isAbs (R.path ++ p) = true := by
  obtain ⟨w, hw⟩ := R.path_head
  rw [hw]
  rfl

theorem walk_trims {t : DirTree Str} {s s' : Str} (h : Trims s s') {v : Loc × Nat}
    (hw : t.walk tolerant n ℓ (parse s) = .ok v) : t.walk tolerant n ℓ (parse s') = .ok v := by
  obtain ⟨pre, post, hp, hpre, hpost⟩ := h.comps
  rw [hp] at hw
  exact DirTree.walk_drop_here rfl rfl hpost (DirTree.walk_here (fun c hc => Or.inr (hpre c hc)) hw)

theorem walk_root {t : DirTree Str} (hc : t.Clear R.loc) (hd : t.node R.loc = some .dir) (hp : p = [] ∨ isAbs p = true) :
    t.walk r n [] (parse (R.path ++ p)) = t.walk r n R.loc (parse p) := by
  have h : t.walk r n [] (parse (render R.loc ++ p) ++ []) = t.walk r n R.loc (parse p ++ []) :=
    walk_render_append R.valid hc hd hp
  rwa [List.append_nil, List.append_nil] at h

theorem nul_not_mem_sanitize (R : RootDir) (h : nul ∉ p) : nul ∉ pathSanitize (R.path ++ p) := by
  intro hm
  rcases List.mem_append.mp ((trims_sanitize (R.path ++ p)).part.subset hm) with hm | hm
  · exact nul_not_mem_render R.valid hm
  · exact h hm

theorem resolved_seen (hR : fs.entry R.loc = some .dir) (hp : p = [] ∨ isAbs p = true) (hnul : nul ∉ p)
    (hseen : (fs.seenTree (some R.path)).walk tolerant (symloopMax - 1) R.loc (parse p) = .ok (ℓ, k))
    (hfit : FitsPathMax fs R cwd p) :
    resolved (fs.seenTree (some R.path)) cwd (pathSanitize (R.path ++ p)) = some (.ok (.ofLoc ℓ)) ∧ Canonical fs ℓ := by
  have hT := trims_sanitize (R.path ++ p)
  have hc : (fs.seenTree (some R.path)).Clear R.loc := (FileSystem.clear_seen _).mpr (FileSystem.clear_of_dir hR)
  have hd : (fs.seenTree (some R.path)).node R.loc = some .dir := by rw [FileSystem.node_seen, hR]; rfl
  rw [← walk_root hc hd hp] at hseen
  have hseen := walk_trims hT hseen
  have habs : isAbs (pathSanitize (R.path ++ p)) = true := hT.abs.trans (isAbs_path_append R p)
  have hdb : double (pathSanitize (R.path ++ p)) = false :=
    double_of_lead R.valid R.ne_nil (hT.lead (isAbs_path_append R p))
  obtain ⟨o, ho⟩ := Option.isSome_iff_exists.mp hfit.2
  have hwr : Written (fs.seenTree (some R.path)) := FileSystem.written_seen R.noNul
  have hres := ho
  rw [resolved, start_abs habs hdb] at hres
  have hloc := walk_of_advance hwr _ _ _ hres
  have h0 : (Place.ofLoc []).loc cwd = [] := rfl
  rw [h0, hseen] at hloc
  cases o with
  | error e => cases hloc
  | ok o =>
    obtain ⟨he, hv, hcl, hs⟩ := resolved_abs hwr (noDouble_seen R) habs hdb (nul_not_mem_sanitize R hnul) ho
    have hl : o.loc cwd = o.names := by rw [he]; simp [Place.loc, Place.ofLoc]
    have hℓ : ℓ = o.names := (Except.ok.inj hloc).trans hl
    rw [← hℓ] at he hv hcl hs
    exact ⟨by rw [ho, he], hv, (FileSystem.clear_seen _).mp hcl, hs⟩

/-- The first walk of a path below the root directory comes to where the kernel comes to. -/
theorem resolved_root (hR : fs.entry R.loc = some .dir) (hp : p = [] ∨ isAbs p = true) (hnul : nul ∉ p)
    (hf : r.follow = true) (ht : r.top = R.loc) (hw : fs.tree.walk r (symloopMax - 1) R.loc (parse p) = .ok (ℓ, k))
    (hu : fs.tree.Along r r.Unclamped (symloopMax - 1) R.loc (parse p)) (hfit : FitsPathMax fs R cwd p) :
    resolved (fs.seenTree (some R.path)) cwd (pathSanitize (R.path ++ p)) = some (.ok (.ofLoc ℓ)) ∧ Canonical fs ℓ :=
  resolved_seen hR hp hnul (walk_seen hR hf ht hu hw) hfit

/-- Both walks of a path that is followed to `ℓ`. Below the root directory itself nothing but
that directory is returned for a place whose path does not begin with its own. -/
theorem finishBuf_followed (hattr : fs.NoAttr) (hR : fs.entry R.loc = some .dir) (hf : followSymlink atflags = true)
    (hbuf : pathMax ≤ bufsiz) (hp : (R.path ++ p).length < pathMax) (hnul : nul ∉ p) {isAtrootfd : Bool} {ℓ' : Loc}
    (hr : resolved (fs.seenTree (some R.path)) cwd (pathSanitize (R.path ++ p)) = some (.ok (.ofLoc ℓ)))
    (hℓ : Canonical fs ℓ) (hℓ' : ℓ' = if isAtrootfd = true ∧ strleq (pathOf ℓ) R.path = false then R.loc else ℓ)
    (hign : allowIgnore prflags = true → strleq (pathOf ℓ') R.path = true →
      ignore re ((pathOf ℓ').drop R.path.length) = false) :
    Settles (fun fuel => finishBuf (fs.host cwd fds) (some R.path) re fuel bufsiz atflags prflags errno isAtrootfd
      (R.path ++ p)) (.done (pathOf ℓ')) := by
  have hT := trims_sanitize (R.path ++ p)
  have hne : pathSanitize (R.path ++ p) ≠ [] := hT.ne_nil (by simp [R.path_ne_nil])
  have hlen : (pathSanitize (R.path ++ p)).length < pathMax := Nat.lt_of_le_of_lt hT.part.length_le hp
  have hroot : pathOf R.loc = R.path := if_neg R.ne_nil
  have hc' : Canonical fs ℓ' := by
    rw [hℓ']
    split
    · exact .rootDir hR
    · exact hℓ
  have hr' : resolved (fs.walkTree (some R.path) atflags) cwd (pathSanitize (R.path ++ p)) = some (.ok (.ofLoc ℓ)) := by
    rw [FileSystem.walkTree, if_pos hf]
    exact hr
  have h1 := walkBuf_settles (fun _ => hattr) (fun h => by rw [hT.abs.trans (isAbs_path_append R p)] at h; cases h) R.noNul hne hlen
    (nul_not_mem_sanitize R hnul) hr' fds bufsiz errno
  simp only [leaves, Place.ofLoc_final, strncpy_short hbuf hℓ.short] at h1
  refine finishBuf_settles (by simpa only [hf, if_true] using h1) ?_ hign ?_
  · rw [hℓ', strncpy_short hbuf R.path_short]
    split
    · exact hroot.symm
    · rfl
  · split
    · exact ⟨errno, walkBuf_canonical (fun _ => hattr) R.noNul hbuf hc'⟩
    · rfl

/-- An absolute path that is followed to `ℓ`. -/
theorem pathResolution2_followed (hattr : fs.NoAttr) (hR : fs.entry R.loc = some .dir) (ha : isAbs p = true) (hnul : nul ∉ p)
    (hp : ¬ R.path <+: p) (ho : Ordinary re prflags p) (hf : followSymlink atflags = true) (hbuf : pathMax ≤ bufsiz)
    (hlen : (R.path ++ p).length < pathMax)
    (hr : resolved (fs.seenTree (some R.path)) cwd (pathSanitize (R.path ++ p)) = some (.ok (.ofLoc ℓ)))
    (hℓ : Canonical fs ℓ) (hign : allowIgnore prflags = true → strleq (pathOf ℓ) R.path = true →
      ignore re ((pathOf ℓ).drop R.path.length) = false) (dfd : Int) :
    Settles (fun fuel => pathResolution2 (fs.host cwd fds) (some R.path) re fuel bufsiz atflags prflags errno dfd p)
      (.done (pathOf ℓ)) := by
  refine Settles.congr (fun _ => pathResolution2_abs ho hbuf ha hp hlen) ?_
  exact finishBuf_followed hattr hR hf hbuf hlen hnul hr hℓ (by simp) hign

/-- A path below the root directory, with links followed, is resolved to where the kernel leads
in the changed root. -/
theorem pathResolution2_inChroot (hattr : fs.NoAttr) (hR : fs.entry R.loc = some .dir) (ha : isAbs p = true) (hnul : nul ∉ p)
    (hp : ¬ R.path <+: p) (hf : followSymlink atflags = true) (hmagic : allowMagicLinks prflags = false)
    (hign : allowIgnore prflags = false) (hbuf : pathMax ≤ bufsiz) (hfit : FitsPathMax fs R cwd p)
    (hw : fs.tree.walk (chrootRules R.loc true) (symloopMax - 1) R.loc (parse p) = .ok (ℓ, k))
    (hu : fs.tree.Along (chrootRules R.loc true) (chrootRules R.loc true).Unclamped (symloopMax - 1) R.loc (parse p))
    (dfd : Int) : ∃ rel, ℓ = rel ++ R.loc ∧
      Settles (fun fuel => pathResolution2 (fs.host cwd fds) (some R.path) re fuel bufsiz atflags prflags errno dfd p)
        (.done (R.path ++ render rel)) := by
  obtain ⟨rel, hrel⟩ := DirTree.walk_beneath (r := chrootRules R.loc true) rfl List.suffix_rfl hw
  have hrel : rel ++ R.loc = ℓ := hrel
  refine ⟨rel, hrel.symm, ?_⟩
  obtain ⟨hres, hc⟩ := resolved_root hR (Or.inr ha) hnul rfl rfl hw hu hfit
  have hshort : p.length < pathMax := by
    have := hfit.1
    rw [List.length_append] at this
    omega
  have ho : Ordinary re prflags p := ⟨hshort, (fun h => by rw [hmagic] at h; cases h), (fun h => by rw [hign] at h; cases h)⟩
  rw [← pathOf_append, hrel]
  exact pathResolution2_followed hattr hR ha hnul hp ho hf hbuf hfit.1 hres hc (fun h => by rw [hign] at h; cases h) dfd

end

def linked : FileSystem := .ofList
  [([['r']], .dir), ([['d'], ['r']], .dir), ([['e'], ['r']], .dir), ([['l'], ['r']], .link ['/', 'd']),
    ([['k'], ['d'], ['r']], .link ['.', '.', '/', 'e'])] (by decide)

def rootR : RootDir := ⟨[['r']], by decide, by decide, by decide⟩

theorem pathResolution2_inChroot_linked : ∃ rel, [['x'], ['e'], ['r']] = rel ++ rootR.loc ∧
    Settles (fun fuel => pathResolution2 (linked.host [] fun _ => none) (some rootR.path) none fuel pathMax 0
      (prNoignore ||| prNomagiclinks) none atFdcwd ['/', 'l', '/', 'k', '/', 'x']) (.done (rootR.path ++ render rel)) :=
  pathResolution2_inChroot (k := 37) (fun _ => rfl) (by decide) (by decide) (by decide) (by decide) (by decide) (by decide)
    (by decide) (by decide) (by decide) (by decide) (by decide) atFdcwd

end Iamroot
