import Iamroot.ResolutionSpec

/-!
# Paths that meet no attribute

Files may carry the attribute `user.iamroot.path-resolution` as long as the walk
does not meet one. In the tree of this module a name that shows an attribute is a
link too long to be read, so that the walk on places says nothing of a path that
meets it.
-/

namespace Iamroot

open FileTree

namespace FileSystem

/-- The kernel finds an attribute through the name at `ℓ`. -/
def redirects (fs : FileSystem) : Loc → Bool
  | [] => false
  | c :: ℓ =>
    match fs.tree.walk (hostRules true) maxSymlinks ℓ [.name c] with
    | .ok v => (fs.entry v.1).isSome && (fs.attr v.1).isSome
    | .error _ => false

def tooLong : Str := List.replicate pathMax 'a'

def quietNode (fs : FileSystem) (env : Option Str) : Loc → Option (Node Str)
  | [] => some .dir
  | c :: ℓ =>
    match quietNode fs env ℓ with
    | some .dir => if fs.redirects (c :: ℓ) then some (.link false (parse tooLong)) else (fs.seenTree env).node (c :: ℓ)
    | _ => none

/-- The file system as `__realpathat` sees it, less what is behind an attribute. -/
def quietTree (fs : FileSystem) (env : Option Str) : DirTree Str where
  node := fs.quietNode env
  root_dir := rfl
  parent_dir {n ℓ} h := by
    rw [quietNode] at h
    split at h
    · assumption
    · exact absurd rfl h

variable {fs : FileSystem} {env : Option Str} {cwd ℓ : Loc}

theorem node_quiet (ℓ : Loc) : (fs.quietTree env).node ℓ = fs.quietNode env ℓ := rfl

/-- Along a way without links nothing is hidden. -/
theorem quietNode_eq (h : (fs.quietTree env).Clear ℓ) : fs.quietNode env ℓ = (fs.seenTree env).node ℓ := by
  induction ℓ with
  | nil => exact ((fs.seenTree env).root_dir).symm
  | cons c ℓ ih =>
    obtain ⟨hc, -, hl⟩ := h
    have ih := ih hc
    rw [quietNode]
    split
    · rename_i hd
      rw [if_neg]
      intro hr
      have hn : (fs.quietTree env).node (c :: ℓ) = some (.link false (parse tooLong)) := by
        rw [node_quiet, quietNode]
        simp only [hd, hr, if_true]
      simp [DirTree.isLink, hn] at hl
    · rename_i hd
      by_contra hne
      exact hd (ih.trans ((fs.seenTree env).parent_dir (Ne.symm hne)))

theorem clear_of_quiet (h : (fs.quietTree env).Clear ℓ) : (fs.seenTree env).Clear ℓ := by
  induction ℓ with
  | nil => trivial
  | cons c ℓ ih =>
    have hn := quietNode_eq h
    obtain ⟨hc, hf, hl⟩ := h
    refine ⟨ih hc, ?_, ?_⟩
    · rw [DirTree.isFile, ← quietNode_eq hc]
      exact hf
    · rw [DirTree.isLink, ← hn]
      exact hl

theorem attr_of_redirects {c : Str} {v : Loc × Nat} (hw : fs.tree.walk (hostRules true) maxSymlinks ℓ [.name c] = .ok v)
    (hr : fs.redirects (c :: ℓ) = false) (hv : fs.entry v.1 ≠ none) : fs.attr v.1 = none := by
  simp only [redirects, hw] at hr
  cases ha : fs.attr v.1 with
  | none => rfl
  | some x =>
    rw [ha] at hr
    cases hx : fs.entry v.1 with
    | none => exact absurd hx hv
    | some e => simp [hx] at hr

theorem attr_of_quiet (hroot : fs.attr [] = none) (h : (fs.quietTree env).Clear ℓ) (he : fs.entry ℓ ≠ none) :
    fs.attr ℓ = none := by
  cases ℓ with
  | nil => exact hroot
  | cons c ℓ =>
    have hd : fs.entry ℓ = some .dir := fs.parent_dir he
    have hcl := (clear_seen env).mp (clear_of_quiet h)
    have hgo : fs.tree.move (hostRules true) ℓ (.name c) [] = .go (c :: ℓ) :=
      DirTree.move_name_clear (fun e => he (node_tree_none.mp e)) hcl.2.2
    have hw : fs.tree.walk (hostRules true) maxSymlinks ℓ [.name c] = .ok (c :: ℓ, maxSymlinks) := by
      rw [DirTree.walk_go hgo, DirTree.walk_nil]
    have hq : fs.quietNode env ℓ = some .dir := by
      rw [quietNode_eq h.1, node_seen, hd]
      rfl
    have hr : fs.redirects (c :: ℓ) = false := by
      cases hr : fs.redirects (c :: ℓ) with
      | false => rfl
      | true =>
        have hn : (fs.quietTree env).node (c :: ℓ) = some (.link false (parse tooLong)) := by
          rw [node_quiet, quietNode]
          simp only [hq, hr, if_true]
        have hl := h.2.2
        simp [DirTree.isLink, hn] at hl
    exact attr_of_redirects hw hr he

/-! ## The answers on such a path -/

section
variable {atflags : Word} {errno : Option Errno} {s : Scan} {o : Place} {c : Str}
  (hA : Asked (fs.quietTree env) cwd (fs.entry cwd = some .dir) s o c)
include hA

theorem Asked.of_quiet : Asked (fs.seenTree env) cwd (fs.entry cwd = some .dir) s o c :=
  { hA with clear := clear_of_quiet hA.clear }

theorem quiet_isFile : (fs.quietTree env).isFile (o.loc cwd) = fs.tree.isFile (o.loc cwd) := by
  rw [← isFile_seen env, DirTree.isFile, DirTree.isFile, node_quiet, quietNode_eq hA.clear]

/-- The last step of the kernel comes to a file without the attribute. -/
theorem attr_of_last (hroot : fs.attr [] = none) (he : fs.entry (o.loc cwd) ≠ none)
    (hr : ValidName c → fs.entry (o.loc cwd) = some .dir → fs.redirects (c :: o.loc cwd) = false) {v : Loc × Nat}
    (hw : fs.tree.walk (hostRules true) maxSymlinks (o.loc cwd) [compOf c] = .ok v) (hv : fs.entry v.1 ≠ none) :
    fs.attr v.1 = none := by
  have hmove : fs.tree.isFile (o.loc cwd) = false := by
    by_contra hf
    rw [Bool.not_eq_false] at hf
    have hstop : fs.tree.move (hostRules true) (o.loc cwd) (compOf c) [] = .stop .notDir := by
      cases hc : compOf c with
      | empty | dot | up => rw [DirTree.move, if_pos hf]
      | name m =>
        have hm : fs.tree.node (m :: o.loc cwd) = none := by
          by_contra hne
          rw [DirTree.isFile_parent hne] at hf
          cases hf
        simp only [DirTree.move, hm, hf, if_true]
    rw [DirTree.walk_stop hstop] at hw
    cases hw
  cases hc : compOf c with
  | empty | dot =>
    have hgo : fs.tree.move (hostRules true) (o.loc cwd) (compOf c) [] = .go (o.loc cwd) := by
      rw [hc, DirTree.move, if_neg (by rw [hmove]; decide)]
    rw [DirTree.walk_go hgo, DirTree.walk_nil] at hw
    obtain rfl := Except.ok.inj hw
    exact attr_of_quiet hroot hA.clear he
  | up =>
    have hgo : fs.tree.move (hostRules true) (o.loc cwd) (compOf c) [] = .go (o.loc cwd).tail := by
      rw [hc, DirTree.move, if_neg (by rw [hmove]; decide), Rules.parent]
      cases o.loc cwd <;> rfl
    rw [DirTree.walk_go hgo, DirTree.walk_nil] at hw
    obtain rfl := Except.ok.inj hw
    refine attr_of_quiet hroot (?_ : (fs.quietTree env).Clear _) hv
    cases hl : o.loc cwd with
    | nil => trivial
    | cons m ℓ => exact (hl ▸ hA.clear).1
  | name m =>
    obtain rfl : m = c := compOf_eq_name hc
    have hval : ValidName m := by
      refine ⟨?_, hA.noSlash, hA.noNul, ?_, ?_⟩ <;> rintro rfl <;> cases hc
    have hd := dir_of_clear ((clear_seen env).mp (clear_of_quiet hA.clear)) hmove he
    rw [hc] at hw
    exact attr_of_redirects hw (hr hval hd) hv

theorem getxattr_quiet (hroot : fs.attr [] = none)
    (hr : ValidName c → fs.entry (o.loc cwd) = some .dir → fs.redirects (c :: o.loc cwd) = false) :
    ∃ e, fs.getxattr cwd (addName s.output c) = .error e := by
  have hA' := Asked.of_quiet hA
  have hseek := lookup_asked hA' true
  have hcl := Asked.clear_tree hA'
  unfold getxattr
  by_cases he : fs.entry (o.loc cwd) = none
  · have hb := entry_baseLoc hA.based
    have hm := DirTree.walk_names_missing [compOf c] rfl (r := hostRules true) (n := maxSymlinks) hcl
      (fun e => by rw [node_tree_none.mp e] at hb; cases hb)
      (by rw [List.reverse_reverse]; exact node_tree_none.mpr he)
    rw [hseek]
    rcases hm with hm | ⟨ℓ, hℓ, hm⟩
    · rw [hm]
      exact ⟨_, rfl⟩
    · rw [hm]
      exact ⟨.ENOENT, by simp [bind, Except.bind, walked, node_tree_none.mp hℓ]⟩
  · have hwalk : fs.tree.walk (hostRules true) maxSymlinks (baseLoc cwd o) (o.names.reverse.map .name ++ [compOf c]) =
        fs.tree.walk (hostRules true) maxSymlinks (o.loc cwd) [compOf c] := by
      rw [DirTree.walk_names hcl (Or.inr (by rw [List.reverse_reverse]; exact fun e => he (node_tree_none.mp e))),
        List.reverse_reverse, ← loc_eq]
    rw [hseek, hwalk]
    cases hw : fs.tree.walk (hostRules true) maxSymlinks (o.loc cwd) [compOf c] with
    | error e => exact ⟨_, rfl⟩
    | ok v =>
      have hnone : fs.entry v.1 ≠ none → fs.attr v.1 = none := fun hv => attr_of_last hA hroot he hr hw hv
      cases hx : fs.entry v.1 with
      | none => exact ⟨.ENOENT, by simp [bind, Except.bind, walked, hx]⟩
      | some x => exact ⟨.ENODATA, by simp [bind, Except.bind, walked, hx, hnone (by simp [hx])]⟩

omit hA in
theorem quiet_of_dir (hcl : (fs.quietTree env).Clear ℓ) (hd : fs.entry ℓ = some .dir) (c : Str) :
    (fs.quietTree env).node (c :: ℓ) =
      if fs.redirects (c :: ℓ) then some (.link false (parse tooLong)) else (fs.seenTree env).node (c :: ℓ) := by
  have hq : fs.quietNode env ℓ = some .dir := by
    rw [quietNode_eq hcl, node_seen, hd]
    rfl
  rw [node_quiet, quietNode]
  simp only [hq]

theorem dir_of_quiet_node (hn : (fs.quietTree env).node (c :: o.loc cwd) ≠ none) : fs.entry (o.loc cwd) = some .dir := by
  have hd := (fs.quietTree env).parent_dir hn
  rw [node_quiet, quietNode_eq hA.clear, node_seen] at hd
  refine dir_of_clear ((clear_seen env).mp (clear_of_quiet hA.clear)) ?_ (fun he => by rw [he] at hd; cases hd)
  rw [← isFile_seen env, DirTree.isFile, node_seen, hd]

theorem redirects_false (hd : fs.entry (o.loc cwd) = some .dir) (hl : (fs.quietTree env).isLink (c :: o.loc cwd) = false) :
    fs.redirects (c :: o.loc cwd) = false := by
  rw [DirTree.isLink, quiet_of_dir hA.clear hd] at hl
  cases hr : fs.redirects (c :: o.loc cwd) with
  | false => rfl
  | true => simp [hr] at hl

end

/-- As long as no attribute is met, the host answers as this tree. -/
theorem sees_quiet {atflags : Word} (hattr : fs.attr [] = none) (cwd : Loc) (hroot : nul ∉ getrootdir env)
    (fds : Int → Option Loc) (errno : Option Errno) (hf : followSymlink atflags = true) :
    Sees (fs.host cwd fds) env errno atflags (fs.quietTree env) cwd (fs.entry cwd = some .dir) where
  file {s o c} hA hfile := by
    rw [quiet_isFile hA] at hfile
    have hnd : fs.entry (o.loc cwd) ≠ some .dir := by
      rw [(isFile_tree _).mp hfile]
      nofun
    exact look_file fds (Asked.of_quiet hA) hf (getxattr_quiet hA hattr fun _ hd => absurd hd hnd) hfile
  link {s o c absolute target} hA hc hn := by
    have hd := dir_of_quiet_node hA (by rw [hn]; nofun)
    rw [quiet_of_dir hA.clear hd] at hn
    by_cases hr : fs.redirects (c :: o.loc cwd) = true
    · rw [if_pos hr] at hn
      have hseen : Iamroot.seen env tooLong = tooLong := rfl
      simp only [Option.some.injEq, Node.link.injEq] at hn
      obtain ⟨rfl, rfl⟩ := hn
      refine ⟨tooLong, by decide, ?_, rfl, rfl, fun hlt => ?_⟩
      · rw [hseen]
        exact fun h => absurd (List.eq_of_mem_replicate h) (by decide)
      · have := hA.inStack
        simp only [tooLong, List.length_replicate] at hlt
        omega
    · rw [if_neg hr] at hn
      obtain ⟨txt, ht, rfl, rfl⟩ := node_seen_link hn
      obtain ⟨hne, hnul⟩ := fs.target_ok ht
      exact ⟨txt, hne, nul_not_mem_seen hroot hnul, rfl, rfl, fun hlt => ⟨errno,
        look_link fds (Asked.of_quiet hA) hf (getxattr_quiet hA hattr fun _ _ => by simpa using hr) hc ht hlt⟩⟩
  plain {s o c} hA hfile hl := by
    rw [quiet_isFile hA] at hfile
    refine look_plain fds (Asked.of_quiet hA) hf (getxattr_quiet hA hattr fun hv hd => redirects_false hA hd (hl hv)) hfile ?_
    intro hv
    by_contra hlink
    obtain ⟨t, ht⟩ := (isLink_tree _).mp (by simpa using hlink)
    have hd := fs.parent_dir (c := c) (ℓ := o.loc cwd) (by rw [ht]; nofun)
    have hlq := hl hv
    rw [DirTree.isLink, quiet_of_dir hA.clear hd, if_neg (by rw [redirects_false hA hd (hl hv)]; decide)] at hlq
    exact hlink ((isLink_seen env _).symm.trans hlq)

/-- The tree that `__realpathat` walks as long as it meets no attribute. -/
def quietWalkTree (fs : FileSystem) (env : Option Str) (atflags : Word) : DirTree Str :=
  if followSymlink atflags then fs.quietTree env else DirTree.blank

/-- What `__realpathat` returns on a path that meets no attribute. -/
theorem realpathat_quiet {atflags : Word} {path : Str} {r : Except Err Place} (hattr : followSymlink atflags = true → fs.attr [] = none)
    (hcwd : isAbs path = false → (fs.entry cwd = some .dir ∧ (pathOf cwd).length < pathMax) ∧ (fs.quietWalkTree env atflags).Clear cwd)
    (hroot : nul ∉ getrootdir env) (fds : Int → Option Loc) (errno : Option Errno) (hne : path ≠ [])
    (hlen : path.length < pathMax) (hnul : nul ∉ path) (hr : resolved (fs.quietWalkTree env atflags) cwd path = some r) :
    ∃ n, ∀ k, realpathat (fs.host cwd fds) env errno (n + k) path atflags = result cwd r := by
  unfold quietWalkTree at hr hcwd
  by_cases hf : followSymlink atflags = true
  · rw [if_pos hf] at hr hcwd
    refine realpathat_eq (sees_quiet (hattr hf) cwd hroot fds errno hf).short (getcwd_of_dir fds) (fun h => ?_) hne hlen hnul hr
    obtain ⟨hd, hcl⟩ := hcwd h
    refine ⟨hd, hcl, ?_⟩
    rw [DirTree.isFile, node_quiet, quietNode_eq hcl]
    exact (isFile_seen env cwd).trans (isFile_of_dir hd.1)
  · rw [if_neg hf] at hr
    refine realpathat_eq (sees_nofollow _ env errno cwd _ (by simpa using hf)) (getcwd_of_dir fds) (fun h => ?_) hne hlen hnul hr
    exact ⟨(hcwd h).1, clear_blank cwd, isFile_blank cwd⟩

end FileSystem

theorem walkBuf_quiet {fs : FileSystem} {env : Option Str} {cwd : Loc} {atflags : Word} {buf : Str} {r : Except Err Place}
    (hattr : followSymlink atflags = true → fs.attr [] = none)
    (hcwd : isAbs buf = false → (fs.entry cwd = some .dir ∧ (pathOf cwd).length < pathMax) ∧ (fs.quietWalkTree env atflags).Clear cwd)
    (hroot : nul ∉ getrootdir env) (hne : buf ≠ []) (hlen : buf.length < pathMax) (hnul : nul ∉ buf)
    (hr : resolved (fs.quietWalkTree env atflags) cwd buf = some r) (fds : Int → Option Loc) (bufsiz : Nat)
    (errno : Option Errno) :
    Settles (fun fuel => walkBuf (fs.host cwd fds) env fuel bufsiz atflags errno buf)
      (.done (leaves cwd bufsiz buf errno r)) := by
  obtain ⟨n, hn⟩ := FileSystem.realpathat_quiet hattr hcwd hroot fds errno hne hlen hnul hr
  refine ⟨n, fun k => ?_⟩
  show walkBuf (fs.host cwd fds) env (n + k) bufsiz atflags errno buf = _
  rw [walkBuf, hn k]
  cases r <;> rfl

end Iamroot
