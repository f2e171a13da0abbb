import Iamroot.Lexical

/-!
# Confinement

What the kernel reaches through a resolved path lies below the root directory,
when the path is walked, or shortened, without a `..` at the root directory,
and the kernel, when links are left to it, meets no absolute one.
-/

namespace Iamroot

open FileTree

/-- The text `q` that is put behind the root directory for the path that is given, and whether
the directory of the descriptor is the root directory itself. -/
inductive Given (fs : FileSystem) (R : RootDir) (fds : Int → Option Loc) (dfd : Int) (p : Str) : Str → Bool → Prop
  | abs (ha : isAbs p = true) (hp : ¬ R.path <+: p) : Given fs R fds dfd p p false
  | again (q : Str) (hp : p = R.path ++ q) : Given fs R fds dfd p q false
  | dir (rel : Loc) (ha : isAbs p = false) (hd : dfd ≠ atFdcwd) (hf : fds dfd = some (rel ++ R.loc))
    (he : fs.entry (rel ++ R.loc) = some .dir) : Given fs R fds dfd p (render rel ++ '/' :: p) (rel = [])

/-- The kernel's walk in the root directory `R`, but missing names are kept. -/
def looseRules (R : Loc) : Rules Str := { top := R, stop := R, follow := true, keep := true }

def below (R : RootDir) (prflags : Word) (q : Str) : Str :=
  (if allowWalkAlong prflags then pathOf (shorten R.loc (parse q)) else pathSanitize (R.path ++ q)).drop R.path.length

section
variable (fs : FileSystem) (R : RootDir) (re : Option (Str → Bool)) (cwd : Loc) (prflags : Word) (q : Str)

/-- The links are followed to a place that is not ignored, without `..` at the root directory.
For a path that starts at a descriptor of the root directory, a place whose path does not begin with
the string `R` is as good. -/
def FollowedInside (atRoot : Bool) : Prop :=
  FitsPathMax fs R cwd q ∧ ∃ v : Loc × Nat,
    (allowIgnore prflags = true → ignore re ((pathOf v.1).drop R.path.length) = false) ∧
    ((fs.tree.walk (looseRules R.loc) (symloopMax - 1) R.loc (parse q) = .ok v ∧
        fs.tree.Along (looseRules R.loc) (looseRules R.loc).Unclamped (symloopMax - 1) R.loc (parse q)) ∨
      (atRoot = true ∧ ¬ R.path <+: pathOf v.1 ∧
        (fs.seenTree (some R.path)).walk tolerant (symloopMax - 1) R.loc (parse q) = .ok v))

/-- What is left for the kernel has no `..` at the root directory and no absolute link that is followed. -/
def LeftInside : Prop :=
  (allowIgnore prflags = true → ignore re ((pathSanitize (R.path ++ q)).drop R.path.length) = false) ∧
  (allowWalkAlong prflags = true → Stays R.loc R.loc (parse q)) ∧
  fs.tree.Along (chrootRules R.loc false)
    (fun ℓ cs => (chrootRules R.loc false).Unclamped ℓ cs ∧ fs.tree.NoJump (chrootRules R.loc false) ℓ cs) maxSymlinks R.loc
    (parse (below R prflags q))

def StaysInside (atflags : Word) (atRoot : Bool) : Prop :=
  (q = [] ∨ isAbs q = true) ∧
  if followSymlink atflags then FollowedInside fs R re cwd prflags q atRoot else LeftInside fs R re prflags q

end

section
variable {fs : FileSystem} {R : RootDir} {re : Option (Str → Bool)} {cwd : Loc} {fds : Int → Option Loc}
  {atflags prflags : Word} {errno : Option Errno} {dfd : Int} {p q : Str} {b : Bool} {ℓ : Loc}

theorem lookup_beneath (hR : fs.entry R.loc = some .dir) (hq : q = [] ∨ isAbs q = true) {follow : Bool}
    (h : fs.tree.Along (chrootRules R.loc follow) (fun ℓ cs => (chrootRules R.loc follow).Unclamped ℓ cs ∧
      fs.tree.NoJump (chrootRules R.loc follow) ℓ cs) maxSymlinks R.loc (parse q))
    (hl : fs.lookup cwd follow (R.path ++ q) = .ok ℓ) : R.loc <:+ ℓ := by
  have hne : R.path ++ q ≠ [] := by simp [R.path_ne_nil]
  have hd : fs.tree.node R.loc = some .dir := by rw [FileSystem.node_tree, hR]; rfl
  have hw : fs.tree.walk (hostRules follow) maxSymlinks [] (parse (R.path ++ q)) =
      fs.tree.walk (chrootRules R.loc follow) maxSymlinks R.loc (parse q) := by
    rw [walk_root (FileSystem.clear_of_dir hR) hd hq]
    exact DirTree.walk_unrooted rfl rfl rfl (h.mono fun _ _ h => h.1) (h.mono fun _ _ h => h.2)
  rw [FileSystem.lookup, if_neg hne, isAbs_path_append, if_pos rfl, hw] at hl
  split at hl
  · cases hl
  · cases hv : fs.tree.walk (chrootRules R.loc follow) maxSymlinks R.loc (parse q) with
    | error e => rw [hv] at hl; cases hl
    | ok v =>
      rw [hv] at hl
      have hm : R.loc <:+ v.1 := DirTree.walk_beneath (r := chrootRules R.loc follow) rfl List.suffix_rfl (k := v.2) hv
      cases hl
      exact hm

theorem lookup_canonical (hR : fs.entry R.loc = some .dir) {m : Loc} (hm : Canonical fs m) (hb : R.loc <:+ m)
    {follow : Bool} (hl : fs.lookup cwd follow (pathOf m) = .ok ℓ) : R.loc <:+ ℓ := by
  obtain ⟨rel, rfl⟩ := hb
  rw [pathOf_append] at hl
  have hv : ValidLoc rel := fun c hc => hm.valid c (List.mem_append_left _ hc)
  have hq : render rel = [] ∨ isAbs (render rel) = true := by
    by_cases h : rel = []
    · rw [h]; exact Or.inl rfl
    · exact Or.inr (isAbs_render h)
  refine lookup_beneath hR hq ?_ hl
  rw [parse_render hv]
  have hf : fs.tree.isFile R.loc = false := FileSystem.isFile_of_dir hR
  refine (DirTree.along_go (move_empty hf)).mpr ⟨⟨nofun, trivial⟩, ?_⟩
  refine DirTree.along_names (fun _ => ⟨nofun, trivial⟩) (fun m x cs hx => ⟨nofun, fun _ => ?_⟩)
    (by rw [List.reverse_reverse]; exact hm.clear)
  unfold DirTree.isLink at hx
  unfold DirTree.isJump
  split
  · rename_i h
    rw [h] at hx
    cases hx
  · rfl

/-! ## Before the walks -/

theorem render_eq_nil {ℓ : Loc} : render ℓ = [] ↔ ℓ = [] := by
  refine ⟨fun h => ?_, fun h => by rw [h]; rfl⟩
  by_contra hne
  have := render_length_pos hne
  rw [h] at this
  cases this

theorem Given.noNul (hg : Given fs R fds dfd p q b) (h : nul ∉ p) : nul ∉ q := by
  cases hg with
  | abs ha hp => exact h
  | again _ hp =>
    rw [hp] at h
    exact fun hm => h (List.mem_append_right _ hm)
  | dir rel ha hd hf he =>
    have hv : ValidLoc rel := fun c hc => fs.valid (by rw [he]; nofun) c (List.mem_append_left _ hc)
    intro hm
    rcases List.mem_append.mp hm with hm | hm
    · exact nul_not_mem_render hv hm
    · rcases List.mem_cons.mp hm with hm | hm
      · exact absurd hm (by decide)
      · exact h hm

theorem Given.cases (hg : Given fs R fds dfd p q b)
    (hm : allowMagicLinks prflags = true → p ≠ procRoot ∧ ¬ devFd <+: p) (hk : allowIgnore prflags = true → ignore re p = false) :
    (∃ e, ∀ fuel, pathResolution2 (fs.host cwd fds) (some R.path) re fuel pathMax atflags prflags errno dfd p = .fail e) ∨
    ((R.path ++ q).length < pathMax ∧
      ∀ fuel, pathResolution2 (fs.host cwd fds) (some R.path) re fuel pathMax atflags prflags errno dfd p =
        finishBuf (fs.host cwd fds) (some R.path) re fuel pathMax atflags prflags errno b (R.path ++ q)) := by
  by_cases hs : p.length < pathMax
  · have ho : Ordinary re prflags p := ⟨hs, hm, hk⟩
    -- the string that is put together fits or not
    have hfit : ∀ {c : Bool}, (∀ fuel, pathResolution2 (fs.host cwd fds) (some R.path) re fuel pathMax atflags prflags errno
        dfd p = if (R.path ++ q).length < pathMax then
          finishBuf (fs.host cwd fds) (some R.path) re fuel pathMax atflags prflags errno c (R.path ++ q)
          else .fail .ENAMETOOLONG) →
        (∃ e, ∀ fuel, pathResolution2 (fs.host cwd fds) (some R.path) re fuel pathMax atflags prflags errno dfd p =
          .fail e) ∨ ((R.path ++ q).length < pathMax ∧
          ∀ fuel, pathResolution2 (fs.host cwd fds) (some R.path) re fuel pathMax atflags prflags errno dfd p =
            finishBuf (fs.host cwd fds) (some R.path) re fuel pathMax atflags prflags errno c (R.path ++ q)) := by
      intro c h
      by_cases hl : (R.path ++ q).length < pathMax
      · exact Or.inr ⟨hl, fun fuel => by rw [h fuel, if_pos hl]⟩
      · exact Or.inl ⟨.ENAMETOOLONG, fun fuel => by rw [h fuel, if_neg hl]⟩
    cases hg with
    | abs ha hp =>
      refine hfit fun fuel => ?_
      have hp' : ¬ (R.path ≠ [] ∧ strleq p R.path = true) := by
        rw [strleq_iff R.path_short]
        exact fun h => hp h.2
      unfold pathResolution2
      rw [ho.guards, if_pos ha]
      simp only [rootOf_root, if_neg hp', snprintf]
      by_cases hl : (R.path ++ p).length < pathMax <;> simp only [hl, if_true, if_false]
    | again _ hp =>
      refine hfit fun fuel => ?_
      have ha : isAbs p = true := by rw [hp]; exact isAbs_path_append R q
      have hp' : R.path ≠ [] ∧ strleq p R.path = true := by
        rw [strleq_iff R.path_short, hp]
        exact ⟨R.path_ne_nil, List.prefix_append R.path q⟩
      have hdrop : p.drop R.path.length = q := by rw [hp, List.drop_left]
      unfold pathResolution2
      rw [ho.guards, if_pos ha]
      simp only [rootOf_root, if_pos hp', R.strlen_path, hdrop, snprintf]
      by_cases hl : (R.path ++ q).length < pathMax <;> simp only [hl, if_true, if_false]
    | dir rel ha hd hf he =>
      have hbuf : pathOf (rel ++ R.loc) ++ '/' :: p = R.path ++ (render rel ++ '/' :: p) := by
        rw [pathOf_append, List.append_assoc]
      have hroot : streq R.path (pathOf (rel ++ R.loc)) = decide (rel = []) := by
        rw [pathOf_append, Bool.eq_iff_iff, streq_iff, decide_eq_true_iff, List.self_eq_append_right, render_eq_nil]
      by_cases hneg : dfd < 0
      · left
        refine ⟨.EINVAL, fun fuel => ?_⟩
        have hfp : (fs.host cwd fds).fpath dfd = .error .EINVAL := by
          simp only [FileSystem.host, if_neg hd, if_pos hneg]
        unfold pathResolution2
        rw [ho.guards, if_neg (by rw [ha]; decide), if_pos hd, hfp]
      · by_cases hl : (pathOf (rel ++ R.loc)).length < pathMax
        · have hfp : (fs.host cwd fds).fpath dfd = .ok (pathOf (rel ++ R.loc)) := by
            simp only [FileSystem.host, if_neg hd, if_neg hneg, hf, if_pos hl]
          refine hfit fun fuel => ?_
          unfold pathResolution2
          rw [ho.guards, if_neg (by rw [ha]; decide), if_pos hd, hfp]
          simp only [isAbs_pathOf, Bool.true_eq_false, if_false, rootOf_root, hbuf, hroot, snprintf]
          by_cases hl' : (R.path ++ (render rel ++ '/' :: p)).length < pathMax <;> simp only [hl', if_true, if_false]
        · left
          refine ⟨.ENAMETOOLONG, fun fuel => ?_⟩
          have hfp : (fs.host cwd fds).fpath dfd = .error .ENAMETOOLONG := by
            simp only [FileSystem.host, if_neg hd, if_neg hneg, hf, if_neg hl]
          unfold pathResolution2
          rw [ho.guards, if_neg (by rw [ha]; decide), if_pos hd, hfp]
  · left
    refine ⟨.ENAMETOOLONG, fun fuel => ?_⟩
    have hlen : strnlen p pathMax = pathMax := by
      unfold strnlen
      omega
    unfold pathResolution2
    rw [if_pos hlen]

/-! ## Whatever is returned -/

theorem Settles.not_fail {f : Nat → Ret Str} {buf : Str} (h : Settles f (.done buf)) {e : Errno} (he : ∀ n, f n = .fail e) :
    False := by
  obtain ⟨n, hn⟩ := h
  have := hn 0
  rw [he] at this
  cases this

theorem followed_beneath (hattr : fs.NoAttr) (hR : fs.entry R.loc = some .dir) (hq : q = [] ∨ isAbs q = true) (hnul : nul ∉ q)
    (hf : followSymlink atflags = true) (h : FollowedInside fs R re cwd prflags q b) {buf : Str}
    (hret : Settles (fun fuel => finishBuf (fs.host cwd fds) (some R.path) re fuel pathMax atflags prflags errno b
      (R.path ++ q)) (.done buf)) {follow : Bool} (hl : fs.lookup cwd follow buf = .ok ℓ) : R.loc <:+ ℓ := by
  obtain ⟨hfit, v, hign, hv⟩ := h
  -- the place that is returned lies below the root directory
  have hend : ∀ ℓ', ℓ' = (if b = true ∧ strleq (pathOf v.1) R.path = false then R.loc else v.1) → Canonical fs ℓ' →
      R.loc <:+ ℓ' → (allowIgnore prflags = true → ignore re ((pathOf ℓ').drop R.path.length) = false) →
      resolved (fs.seenTree (some R.path)) cwd (pathSanitize (R.path ++ q)) = some (.ok (.ofLoc v.1)) →
      Canonical fs v.1 → R.loc <:+ ℓ := by
    intro ℓ' hℓ' hc hb hi hr hcv
    have hs : Settles (fun fuel => finishBuf (fs.host cwd fds) (some R.path) re fuel pathMax atflags prflags errno b
        (R.path ++ q)) (.done (pathOf ℓ')) :=
      finishBuf_followed hattr hR hf (Nat.le_refl _) hfit.1 hnul hr hcv hℓ' (fun ha _ => hi ha)
    have hbuf : Ret.done (pathOf ℓ') = .done buf := hs.unique hret
    rw [← Ret.done.inj hbuf] at hl
    exact lookup_canonical hR hc hb hl
  rcases hv with ⟨hw, hu⟩ | ⟨hb, hne, hw⟩
  · obtain ⟨hr, hc⟩ := resolved_root hR hq hnul rfl rfl (k := v.2) hw hu hfit
    have hb : R.loc <:+ v.1 := DirTree.walk_beneath (r := looseRules R.loc) rfl List.suffix_rfl (k := v.2) hw
    refine hend v.1 ?_ hc hb hign hr hc
    rw [if_neg]
    rintro ⟨-, hne⟩
    obtain ⟨rel, hrel⟩ := hb
    have : strleq (pathOf v.1) R.path = true := by
      rw [strleq_iff R.path_short, ← hrel, pathOf_append]
      exact List.prefix_append _ _
    rw [this] at hne
    cases hne
  · obtain ⟨hr, hc⟩ := resolved_seen hR hq hnul (k := v.2) hw hfit
    have hne' : strleq (pathOf v.1) R.path = false := by
      rw [Bool.eq_false_iff]
      exact fun h => hne ((strleq_iff R.path_short).mp h)
    refine hend R.loc (if_pos ⟨hb, hne'⟩).symm (.rootDir hR) List.suffix_rfl (fun _ => ?_) hr hc
    have hroot : pathOf R.loc = R.path := if_neg R.ne_nil
    rw [hroot, List.drop_length]
    simp [ignore]

theorem left_beneath (hR : fs.entry R.loc = some .dir) (hq : q = [] ∨ isAbs q = true) (hnul : nul ∉ q)
    (hlen : (R.path ++ q).length < pathMax) (hf : followSymlink atflags = false) (h : LeftInside fs R re prflags q)
    {buf : Str} (hret : Settles (fun fuel => finishBuf (fs.host cwd fds) (some R.path) re fuel pathMax atflags prflags errno
      b (R.path ++ q)) (.done buf)) (hl : fs.lookup cwd false buf = .ok ℓ) : R.loc <:+ ℓ := by
  obtain ⟨hign, hst, hal⟩ := h
  have hbuf := Ret.done.inj ((finishBuf_unfollowed hf (Nat.le_refl _) hq hnul hlen hign).unique hret)
  -- what is returned begins with the root directory
  have hbelow : buf = R.path ++ below R prflags q ∧ (below R prflags q = [] ∨ isAbs (below R prflags q) = true) := by
    rw [← hbuf]
    unfold below
    by_cases hw : allowWalkAlong prflags = true
    · obtain ⟨rel, hrel⟩ := shorten_beneath (hst hw) List.suffix_rfl
      rw [if_pos hw, ← hrel, pathOf_append, List.drop_left]
      refine ⟨rfl, ?_⟩
      by_cases h : rel = []
      · rw [h]; exact Or.inl rfl
      · exact Or.inr (isAbs_render h)
    · obtain ⟨q', hq', habs⟩ := sanitize_root R hq
      rw [if_neg hw, hq', List.drop_left]
      exact ⟨rfl, habs⟩
  rw [hbelow.1] at hl
  exact lookup_beneath hR hbelow.2 hal hl

/-- What the kernel reaches through the path that is returned is the root directory or lies below it. -/
theorem pathResolution2_confined (hattr : fs.NoAttr) (hR : fs.entry R.loc = some .dir) (hg : Given fs R fds dfd p q b)
    (hnul : nul ∉ p) (hm : allowMagicLinks prflags = true → p ≠ procRoot ∧ ¬ devFd <+: p)
    (hk : allowIgnore prflags = true → ignore re p = false) (hin : StaysInside fs R re cwd prflags q atflags b) {buf : Str}
    (hret : Settles (fun fuel => pathResolution2 (fs.host cwd fds) (some R.path) re fuel pathMax atflags prflags errno dfd p)
      (.done buf)) (hl : fs.lookup cwd (followSymlink atflags) buf = .ok ℓ) : Beneath R.loc ℓ := by
  obtain ⟨hq, hin⟩ := hin
  rcases hg.cases hm hk with ⟨e, he⟩ | ⟨hlen, hfin⟩
  · exact (hret.not_fail he).elim
  · have hret := Settles.congr (fun n => (hfin n).symm) hret
    by_cases hf : followSymlink atflags = true
    · rw [if_pos hf] at hin
      exact followed_beneath hattr hR hq (hg.noNul hnul) hf hin hret hl
    · rw [if_neg hf] at hin
      have hf' : followSymlink atflags = false := by simpa using hf
      rw [hf'] at hl
      exact left_beneath hR hq (hg.noNul hnul) hlen hf' hin hret hl

end

theorem settles_linked : Settles (fun fuel => pathResolution2 (linked.host [] fun _ => none) (some rootR.path) none fuel
    pathMax 0 0 none atFdcwd ['/', 'l', '/', 'k', '/', 'x']) (.done (pathOf [['x'], ['e'], ['r']])) :=
  pathResolution2_followed (fun _ => rfl) (by decide) (by decide) (by decide) (by decide) ⟨by decide, by decide, by decide⟩
    (by decide) (by decide) (by decide) rfl ⟨by decide, by decide, by decide⟩ (by decide)
    atFdcwd

theorem staysInside_linked : StaysInside linked rootR none [] 0 ['/', 'l', '/', 'k', '/', 'x'] 0 false := by
  refine ⟨by decide, ?_⟩
  rw [if_pos (by decide)]
  exact ⟨by decide, ([['x'], ['e'], ['r']], 37), by decide, Or.inl ⟨by decide, by decide⟩⟩

theorem pathResolution2_confined_linked : Beneath rootR.loc [['x'], ['e'], ['r']] :=
  pathResolution2_confined (fun _ => rfl) (by decide) (.abs (by decide) (by decide)) (by decide) (by decide) (by decide)
    staysInside_linked settles_linked rfl

def beside : FileSystem := .ofList [([['r']], .dir), ([['x']], .dir)] (by decide)

/-- `..` at the root directory leads out of it. -/
theorem pathResolution2_escapes : Settles (fun fuel => pathResolution2 (beside.host [] fun _ => none) (some rootR.path) none
      fuel pathMax 0 0 none atFdcwd ['/', '.', '.', '/', 'x']) (.done ['/', 'x']) ∧
    beside.lookup [] true ['/', 'x'] = .ok [['x']] ∧ ¬ Beneath rootR.loc [['x']] := by
  refine ⟨?_, rfl, by decide⟩
  exact pathResolution2_followed (ℓ := [['x']]) (fun _ => rfl) (by decide) (by decide) (by decide) (by decide)
    ⟨by decide, by decide, by decide⟩ (by decide) (by decide) (by decide) rfl ⟨by decide, by decide, by decide⟩
    (by decide) atFdcwd

end Iamroot
