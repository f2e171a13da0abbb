import Iamroot.Lib.TreeSame
import Iamroot.Inverse

/-!
# The spelling of a path

`path_resolution2` matches the ignore expression twice: the path as it is given,
before anything is done to it, and what the first walk has left of it below the
root directory. Two spellings of one path look the same to the second test alone,
and where no link is followed not even to that one.
-/

namespace Iamroot

open FileTree

/-! ## The decision -/

section
variable (h : Host) (env : Option Str) (re : Option (Str → Bool)) (fuel bufsiz : Nat) (atflags prflags : Word)

def copies (path : Str) : Bool :=
  allowMagicLinks prflags && (streq path procRoot || strneq path devFd devFd.length) || allowIgnore prflags && ignore re path

def testedWalk (errno : Option Errno) (path : Str) : Ret (Str × Option Errno) :=
  if followSymlink atflags then walkBuf h env fuel bufsiz atflags errno (pathSanitize (textOf env path))
  else .done (pathSanitize (textOf env path), errno)

def stripsRoot (buf : Str) : Bool :=
  strleq buf (rootOf env) && (allowIgnore prflags && ignore re (buf.drop (strlen (rootOf env))))

/-- Whether the path is left to the host. -/
def leftToHost (errno : Option Errno) (path : Str) : Ret Bool :=
  if copies re prflags path then .done true
  else (testedWalk h env fuel bufsiz atflags errno path).bind fun r => .done (stripsRoot env re prflags r.1)

end

section
variable {h : Host} {env : Option Str} {re : Option (Str → Bool)} {fuel bufsiz : Nat} {atflags prflags : Word}
  {errno : Option Errno} {dfd : Int} {p q : Str}

/-- A call comes to its result by these tests. -/
theorem pathResolution2_decided (hs : p.length < pathMax) (hb : 2 ≤ bufsiz) (ha : isAbs p = true)
    (ht : (textOf env p).length < bufsiz) : pathResolution2 h env re fuel bufsiz atflags prflags errno dfd p =
      if copies re prflags p then
        if allowMagicLinks prflags ∧ streq p procRoot then .done ['/'] else copyAsIs p bufsiz
      else (testedWalk h env fuel bufsiz atflags errno p).bind fun r =>
        let buf := if stripsRoot env re prflags r.1 then (striprootdir env r.1).getD r.1 else r.1
        if allowWalkAlong prflags then (walkBuf h env fuel bufsiz atflags r.2 buf).bind fun r => .done r.1 else .done buf := by
  have hlen : strnlen p pathMax ≠ pathMax := by
    unfold strnlen
    omega
  have hslash : strncpy ['/'] bufsiz = ['/'] := by
    unfold strncpy
    exact List.take_of_length_le (by simp; omega)
  have hone : strnlen ['/'] bufsiz = 1 := by
    unfold strnlen
    simp
    omega
  have htext : textOf env p = rootOf env ++ if rootOf env ≠ [] ∧ strleq p (rootOf env) = true then
      p.drop (strlen (rootOf env)) else p := if_pos ha
  unfold pathResolution2
  rw [if_neg hlen]
  by_cases hp : allowMagicLinks prflags = true ∧ streq p procRoot = true
  · have hc : copies re prflags p = true := by simp [copies, hp.1, hp.2]
    rw [if_pos hp, if_pos hc, if_pos hp, hslash]
    exact if_neg (not_not_intro hone)
  rw [if_neg hp]
  by_cases hd : allowMagicLinks prflags = true ∧ strneq p devFd devFd.length = true
  · have hc : copies re prflags p = true := by simp [copies, hd.1, hd.2]
    rw [if_pos hd, if_pos hc, if_neg hp]
  rw [if_neg hd]
  by_cases hi : allowIgnore prflags = true ∧ ignore re p = true
  · have hc : copies re prflags p = true := by simp [copies, hi.1, hi.2]
    rw [if_pos hi, if_pos hc, if_neg hp]
  have hc : ¬ copies re prflags p = true := by
    simp only [copies, Bool.or_eq_true, Bool.and_eq_true]
    rintro (⟨hm, hx | hx⟩ | hx)
    · exact hp ⟨hm, hx⟩
    · exact hd ⟨hm, hx⟩
    · exact hi hx
  rw [if_neg hi, if_pos ha, if_neg hc]
  simp only [← htext, snprintf, if_pos ht]
  unfold finishBuf testedWalk stripsRoot
  simp only [Bool.false_eq_true, false_and, and_false, if_false, Bool.and_eq_true]

end

/-! ## Two spellings of one path -/

structure Spelling (fs : FileSystem) (R : RootDir) (cwd : Loc) (atflags : Word) (p : Str) : Prop where
  abs : isAbs p = true
  noNul : nul ∉ p
  unlike : ¬ R.path <+: p
  short : (R.path ++ p).length < pathMax
  fits : followSymlink atflags = true → FitsPathMax fs R cwd p
  inside : ∀ v, (fs.walkTree (some R.path) atflags).walk tolerant (symloopMax - 1) R.loc (parse p) = .ok v → R.loc <:+ v.1

/-- Where the path leads to below the root directory. One that leads nowhere is only shortened. -/
def normalForm (fs : FileSystem) (R : RootDir) (atflags : Word) (p : Str) : Loc :=
  match (fs.walkTree (some R.path) atflags).walk tolerant (symloopMax - 1) R.loc (parse p) with
  | .ok v => v.1.take (v.1.length - R.loc.length)
  | .error _ => shorten [] (parse p)

def Resolves (fs : FileSystem) (R : RootDir) (atflags : Word) (p : Str) : Prop :=
  followSymlink atflags = true ∧
    ((fs.walkTree (some R.path) atflags).walk tolerant (symloopMax - 1) R.loc (parse p)).isOk = true ∧
      normalForm fs R atflags p ≠ []

def normalIgnored (fs : FileSystem) (R : RootDir) (re : Option (Str → Bool)) (atflags prflags : Word) (p : Str) : Bool :=
  allowIgnore prflags && ignore re (pathOf (normalForm fs R atflags p))

def tested (fs : FileSystem) (R : RootDir) (cwd : Loc) (atflags : Word) (p : Str) : Str :=
  let buf := pathSanitize (R.path ++ p)
  if followSymlink atflags then
    match resolved (fs.seenTree (some R.path)) cwd buf with
    | some (.ok o) => o.final cwd
    | _ => buf
  else buf

def matched (fs : FileSystem) (R : RootDir) (re : Option (Str → Bool)) (cwd : Loc) (atflags prflags : Word) (p : Str) : Bool :=
  copies re prflags p || stripsRoot (some R.path) re prflags (tested fs R cwd atflags p)

/-- Both spellings are left to the host, because their normal form is ignored, or none is. -/
def SameDecision (fs : FileSystem) (R : RootDir) (re : Option (Str → Bool)) (cwd : Loc) (fds : Int → Option Loc) (bufsiz : Nat)
    (atflags prflags : Word) (errno : Option Errno) (p q : Str) : Prop :=
  ∃ b, Settles (fun fuel => leftToHost (fs.host cwd fds) (some R.path) re fuel bufsiz atflags prflags errno p) (.done b) ∧
    Settles (fun fuel => leftToHost (fs.host cwd fds) (some R.path) re fuel bufsiz atflags prflags errno q) (.done b) ∧
    (b = true → normalIgnored fs R re atflags prflags p = true)

/-- The texts that are matched before they are resolved are those of an ignored path only. Where nothing is
resolved, or nothing is left below the root directory, there are two of them for each path, and they are alike. -/
def FairSpellings (fs : FileSystem) (R : RootDir) (re : Option (Str → Bool)) (cwd : Loc) (atflags prflags : Word)
    (p q : Str) : Prop :=
  (Resolves fs R atflags p →
    (copies re prflags p = true → normalIgnored fs R re atflags prflags p = true) ∧
      (copies re prflags q = true → normalIgnored fs R re atflags prflags p = true)) ∧
  (¬ Resolves fs R atflags p →
    matched fs R re cwd atflags prflags p = matched fs R re cwd atflags prflags q ∧
      (matched fs R re cwd atflags prflags p = true → normalIgnored fs R re atflags prflags p = true))

section
variable {fs : FileSystem} {R : RootDir} {re : Option (Str → Bool)} {cwd : Loc} {fds : Int → Option Loc} {bufsiz : Nat}
  {atflags prflags : Word} {errno : Option Errno} {p q : Str}

theorem Spelling.textOf (S : Spelling fs R cwd atflags p) : textOf (some R.path) p = R.path ++ p := by
  have hp : ¬ (R.path ≠ [] ∧ strleq p R.path = true) := by
    rw [strleq_iff R.path_short]
    exact fun h => S.unlike h.2
  rw [Iamroot.textOf, if_pos S.abs, rootOf_root, if_neg hp]

theorem stripsRoot_append (R : RootDir) (s : Str) :
    stripsRoot (some R.path) re prflags (R.path ++ s) = (allowIgnore prflags && ignore re s) := by
  have hlead : strleq (R.path ++ s) R.path = true := (strleq_iff R.path_short).mpr (List.prefix_append _ _)
  rw [stripsRoot, rootOf_root, hlead, R.strlen_path, List.drop_left, Bool.true_and]

theorem testedWalk_settles (hattr : followSymlink atflags = true → fs.NoAttr) (hbuf : pathMax ≤ bufsiz)
    (S : Spelling fs R cwd atflags p) : ∃ e, Settles (fun fuel =>
      testedWalk (fs.host cwd fds) (some R.path) fuel bufsiz atflags errno p) (.done (tested fs R cwd atflags p, e)) := by
  have hT := trims_sanitize (R.path ++ p)
  have habs : isAbs (pathSanitize (R.path ++ p)) = true := hT.abs.trans (isAbs_path_append R p)
  have hnul := nul_not_mem_sanitize R S.noNul
  unfold testedWalk tested
  rw [S.textOf]
  by_cases hf : followSymlink atflags = true
  · have hw : fs.walkTree (some R.path) atflags = fs.seenTree (some R.path) := if_pos hf
    obtain ⟨r, hr⟩ := Option.isSome_iff_exists.mp (S.fits hf).2
    have h1 := walkBuf_settles hattr (fun h => by rw [habs] at h; cases h) R.noNul
      (hT.ne_nil (by simp [R.path_ne_nil])) (Nat.lt_of_le_of_lt hT.part.length_le S.short) hnul (hw ▸ hr) fds bufsiz errno
    simp only [hf, if_true, hr]
    cases r with
    | ok o =>
      have hdb := double_of_lead R.valid R.ne_nil (hT.lead (isAbs_path_append R p))
      obtain ⟨ho, -, -, hs⟩ := resolved_abs (FileSystem.written_seen R.noNul) (noDouble_seen R) habs hdb hnul hr
      have hfin : o.final cwd = pathOf o.names := by
        rw [ho]
        exact Place.ofLoc_final _ cwd
      have hshort : strncpy (o.final cwd) bufsiz = o.final cwd := strncpy_short hbuf (hfin ▸ hs)
      simp only [leaves, hshort] at h1
      exact ⟨_, h1⟩
    | error e => exact ⟨_, h1⟩
  · simp only [hf, Bool.false_eq_true, if_false]
    exact ⟨_, Settles.const _⟩

/-- The decision on a path is to leave it where one of the tests matches. -/
theorem leftToHost_settles (hattr : followSymlink atflags = true → fs.NoAttr) (hbuf : pathMax ≤ bufsiz)
    (S : Spelling fs R cwd atflags p) :
    Settles (fun fuel => leftToHost (fs.host cwd fds) (some R.path) re fuel bufsiz atflags prflags errno p)
      (.done (matched fs R re cwd atflags prflags p)) := by
  unfold leftToHost matched
  by_cases hc : copies re prflags p = true
  · simp only [hc, if_true, Bool.true_or]
    exact Settles.const _
  · rw [Bool.not_eq_true] at hc
    simp only [hc, Bool.false_eq_true, if_false, Bool.false_or]
    obtain ⟨e, h⟩ : ∃ e, Settles (fun fuel => testedWalk (fs.host cwd fds) (some R.path) fuel bufsiz atflags errno p)
        (.done (tested fs R cwd atflags p, e)) := testedWalk_settles hattr hbuf S
    exact h.bind (Settles.const _)

theorem stripsRoot_tested (hR : fs.entry R.loc = some .dir) (S : Spelling fs R cwd atflags p) (h : Resolves fs R atflags p) :
    stripsRoot (some R.path) re prflags (tested fs R cwd atflags p) = normalIgnored fs R re atflags prflags p := by
  obtain ⟨hf, hok, hne⟩ := h
  have hw : fs.walkTree (some R.path) atflags = fs.seenTree (some R.path) := if_pos hf
  have hin := S.inside
  unfold normalIgnored
  unfold normalForm at hne ⊢
  cases hlead : (fs.walkTree (some R.path) atflags).walk tolerant (symloopMax - 1) R.loc (parse p) with
  | error e =>
    rw [hlead] at hok
    cases hok
  | ok v =>
    obtain ⟨rel, hrel⟩ := hin v hlead
    have htake : v.1.take (v.1.length - R.loc.length) = rel := by
      rw [← hrel, List.length_append, Nat.add_sub_cancel, List.take_left]
    simp only [hlead, htake] at hne ⊢
    have hr := (resolved_seen hR (Or.inr S.abs) S.noNul (hw ▸ hlead) (S.fits hf)).1
    have ht : tested fs R cwd atflags p = R.path ++ render rel := by
      simp only [tested, hf, if_true, hr]
      rw [Place.ofLoc_final, ← hrel, pathOf_append]
    rw [ht, stripsRoot_append, pathOf, if_neg hne]

/-- The other spelling of a path leads to the same place. -/
theorem walkTree_respelled {cs cs' : List (Comp Str)}
    (hs : (fs.seenTree (some R.path)).Respelled tolerant (symloopMax - 1) R.loc cs cs') :
    (fs.walkTree (some R.path) atflags).walk tolerant (symloopMax - 1) R.loc cs =
      (fs.walkTree (some R.path) atflags).walk tolerant (symloopMax - 1) R.loc cs' := by
  unfold FileSystem.walkTree
  split
  · exact DirTree.walk_respelled rfl rfl rfl hs
  · exact DirTree.walk_respelled_bare rfl rfl rfl FileSystem.isFile_blank FileSystem.isLink_blank hs

theorem shorten_respelled {cs cs' : List (Comp Str)}
    (hs : (fs.seenTree (some R.path)).Respelled tolerant (symloopMax - 1) R.loc cs cs') : shorten [] cs = shorten [] cs' := by
  have h : (DirTree.blank : DirTree Str).walk tolerant 0 [] cs = DirTree.blank.walk tolerant 0 [] cs' :=
    DirTree.walk_respelled_bare rfl rfl rfl FileSystem.isFile_blank FileSystem.isLink_blank hs
  rw [walk_blank, walk_blank] at h
  exact congrArg Prod.fst (Except.ok.inj h)

/-- Two spellings of a path have one normal form. -/
theorem normalForm_respelled (hs : (fs.seenTree (some R.path)).Respelled tolerant (symloopMax - 1) R.loc (parse p) (parse q)) :
    normalForm fs R atflags p = normalForm fs R atflags q := by
  rw [normalForm, normalForm, walkTree_respelled hs, shorten_respelled hs]

/-- **The decision and the spelling.** Two spellings of one path are decided alike, and left to the host for its
normal form alone, just when what is matched of them before they are resolved is fair. -/
theorem leftToHost_spelling (hattr : followSymlink atflags = true → fs.NoAttr) (hR : fs.entry R.loc = some .dir)
    (hbuf : pathMax ≤ bufsiz) (hp : Spelling fs R cwd atflags p) (hq : Spelling fs R cwd atflags q)
    (hs : (fs.seenTree (some R.path)).Respelled tolerant (symloopMax - 1) R.loc (parse p) (parse q)) :
    SameDecision fs R re cwd fds bufsiz atflags prflags errno p q ↔ FairSpellings fs R re cwd atflags prflags p q := by
  have h1 : Settles (fun fuel => leftToHost (fs.host cwd fds) (some R.path) re fuel bufsiz atflags prflags errno p)
      (.done (matched fs R re cwd atflags prflags p)) := leftToHost_settles hattr hbuf hp
  have h2 : Settles (fun fuel => leftToHost (fs.host cwd fds) (some R.path) re fuel bufsiz atflags prflags errno q)
      (.done (matched fs R re cwd atflags prflags q)) := leftToHost_settles hattr hbuf hq
  have hsame : SameDecision fs R re cwd fds bufsiz atflags prflags errno p q ↔
      matched fs R re cwd atflags prflags p = matched fs R re cwd atflags prflags q ∧
        (matched fs R re cwd atflags prflags p = true → normalIgnored fs R re atflags prflags p = true) := by
    constructor
    · rintro ⟨b, hb1, hb2, hb⟩
      have e1 := Ret.done.inj (Settles.unique h1 hb1)
      have e2 := Ret.done.inj (Settles.unique h2 hb2)
      rw [e1, e2]
      exact ⟨rfl, hb⟩
    · rintro ⟨he, hb⟩
      exact ⟨_, h1, he ▸ h2, hb⟩
  rw [hsame, FairSpellings]
  by_cases hres : Resolves fs R atflags p
  · -- the second test is that of the normal form
    have hnf : normalForm fs R atflags p = normalForm fs R atflags q := normalForm_respelled hs
    have hres' : Resolves fs R atflags q := by
      obtain ⟨hf, hok, hne⟩ := hres
      exact ⟨hf, walkTree_respelled hs ▸ hok, hnf ▸ hne⟩
    have hni : normalIgnored fs R re atflags prflags q = normalIgnored fs R re atflags prflags p := by
      rw [normalIgnored, normalIgnored, hnf]
    rw [matched, matched, stripsRoot_tested hR hp hres, stripsRoot_tested hR hq hres', hni]
    simp only [hres, forall_const, not_true, IsEmpty.forall_iff, and_true]
    cases normalIgnored fs R re atflags prflags p with
    | true => simp
    | false => cases copies re prflags p <;> cases copies re prflags q <;> simp
  · simp only [hres, IsEmpty.forall_iff, not_false_eq_true, forall_const, true_and]

end

theorem Spelling.of_lead {fs : FileSystem} {R : RootDir} {cwd d : Loc} {atflags : Word} {p : Str} {k : Nat}
    (ha : isAbs p = true) (hn : nul ∉ p) (hR : ¬ R.path <+: p) (hfit : FitsPathMax fs R cwd p)
    (hlead : (fs.walkTree (some R.path) atflags).walk tolerant (symloopMax - 1) R.loc (parse p) = .ok (d ++ R.loc, k)) :
    Spelling fs R cwd atflags p where
  abs := ha
  noNul := hn
  unlike := hR
  short := hfit.1
  fits := fun _ => hfit
  inside := fun v hv => by
    rw [hlead] at hv
    cases hv
    exact List.suffix_append d R.loc

def ignoresProc : Option (Str → Bool) := some ("/proc/".toList.isPrefixOf ·)

/-- The paths `/d/../e` and `/e` of the chroot. -/
theorem leftToHost_spelling_linked :
    SameDecision linked rootR ignoresProc [] (fun _ => none) pathMax 0 0 none "/d/../e".toList "/e".toList := by
  have hs : (linked.seenTree (some rootR.path)).Respelled tolerant (symloopMax - 1) rootR.loc (parse "/d/../e".toList)
      (parse "/e".toList) := .back ['d'] [.empty] [.name ['e']] (v := (rootR.loc, symloopMax - 1)) (by decide) rfl
  refine (leftToHost_spelling (fun _ _ => rfl) (by decide) (Nat.le_refl _) ?_ ?_ hs).mpr ⟨fun _ => ⟨?_, ?_⟩, fun h => ?_⟩
  · exact .of_lead (d := [['e']]) (by decide) (by decide) (by decide) ⟨by decide, by decide⟩ (k := symloopMax - 1) (by decide)
  · exact .of_lead (d := [['e']]) (by decide) (by decide) (by decide) ⟨by decide, by decide⟩ (k := symloopMax - 1) (by decide)
  · decide
  · decide
  · exact absurd ⟨by decide, by decide, by decide⟩ h

def proced : FileSystem := .ofList [([['r']], .dir), (["proc".toList, ['r']], .dir), (["proc".toList], .dir), ([['x']], .file)]
  (by decide)

/-- The path `/proc/../x` of the chroot is left to the host, where `/x` is not. -/
theorem leftToHost_leaks :
    (proced.seenTree (some rootR.path)).Respelled tolerant (symloopMax - 1) rootR.loc (parse "/proc/../x".toList)
        (parse "/x".toList) ∧
      Spelling proced rootR [] 0 "/proc/../x".toList ∧ Spelling proced rootR [] 0 "/x".toList ∧
      ¬ SameDecision proced rootR ignoresProc [] (fun _ => none) pathMax 0 0 none "/proc/../x".toList "/x".toList ∧
      Settles (fun fuel => pathResolution2 (proced.host [] fun _ => none) (some rootR.path) ignoresProc fuel pathMax 0 0 none
        atFdcwd "/proc/../x".toList) (.done "/proc/../x".toList) ∧
      proced.lookup [] true "/proc/../x".toList = .ok [['x']] ∧
      Settles (fun fuel => pathResolution2 (proced.host [] fun _ => none) (some rootR.path) ignoresProc fuel pathMax 0 0 none
        atFdcwd "/x".toList) (.done "/r/x".toList) := by
  have hp : Spelling proced rootR [] 0 "/proc/../x".toList :=
    .of_lead (d := [['x']]) (by decide) (by decide) (by decide) ⟨by decide, by decide⟩ (k := symloopMax - 1) (by decide)
  have hq : Spelling proced rootR [] 0 "/x".toList :=
    .of_lead (d := [['x']]) (by decide) (by decide) (by decide) ⟨by decide, by decide⟩ (k := symloopMax - 1) (by decide)
  have hx : InChrootPath proced rootR ignoresProc [['x']] := ⟨by decide, by decide, by decide, by decide, by decide⟩
  refine ⟨?_, hp, hq, ?_, ?_, rfl, pathResolution_plain hx (Nat.le_refl _) (by decide) (by decide) atFdcwd⟩
  · exact .back "proc".toList [.empty] [.name ['x']] (v := (rootR.loc, symloopMax - 1)) (by decide) rfl
  · rintro ⟨b, h1, h2, -⟩
    have hm : matched proced rootR ignoresProc [] 0 0 "/proc/../x".toList = b :=
      Ret.done.inj (Settles.unique (leftToHost_settles (fun _ _ => rfl) (Nat.le_refl _) hp) h1)
    have hm' : matched proced rootR ignoresProc [] 0 0 "/x".toList = b :=
      Ret.done.inj (Settles.unique (leftToHost_settles (fun _ _ => rfl) (Nat.le_refl _) hq) h2)
    exact absurd (hm.trans hm'.symm) (by decide)
  · exact ⟨0, fun _ => rfl⟩

end Iamroot
