import Iamroot.Confinement

/-!
# The last component alone

With `AT_SYMLINK_NOFOLLOW` no component is followed: the links on the way to
the last one are left to the kernel, which does not know the root directory. The
entry that the kernel finds is the one in the directory that the way leads to
inside the root directory, as long as no absolute link and no `..` at the root
directory is met on the way, and, when the path is shortened, as long as `..`
cancels directories only.
-/

namespace Iamroot

open FileTree

def inside (rel : Loc) : List (Comp Str) := rel.reverse.map .name

/-- Each `..` of the text takes away the name of a directory, which is no link. -/
def Cancels (fs : FileSystem) (R : RootDir) : Loc → List (Comp Str) → Prop
  | _, [] => True
  | rel, .empty :: cs => Cancels fs R rel cs
  | rel, .dot :: cs => Cancels fs R rel cs
  | rel, .up :: cs => (∃ c rel' v, rel = c :: rel' ∧
      fs.tree.walk (chrootRules R.loc true) maxSymlinks R.loc (inside rel') = .ok v ∧ fs.entry (c :: v.1) = some .dir) ∧
      Cancels fs R rel.tail cs
  | rel, .name m :: cs => Cancels fs R (m :: rel) cs

/-- Neither `..` at the root directory nor a link with an absolute target. -/
def Calm (fs : FileSystem) (R : RootDir) (ℓ : Loc) : Comp Str → Prop
  | .up => ℓ ≠ R.loc
  | .name x => fs.tree.isJump (x :: ℓ) = false
  | _ => True

instance (fs : FileSystem) (R : RootDir) (ℓ : Loc) (c : Comp Str) : Decidable (Calm fs R ℓ c) := by
  cases c <;> unfold Calm <;> infer_instance

section
variable {fs : FileSystem} {R : RootDir} {rel ℓ : Loc} {cs : List (Comp Str)} {n k : Nat} {u v : Loc × Nat}

theorem node_rootDir (hR : fs.entry R.loc = some .dir) : fs.tree.node R.loc ≠ none := by
  rw [FileSystem.node_tree, hR]
  nofun

theorem unclamped_of_calm {follow : Bool} (h : DirTree.Ahead (Calm fs R) ℓ cs) : (chrootRules R.loc follow).Unclamped ℓ cs := by
  cases cs with
  | nil => nofun
  | cons c cs =>
    intro hc
    cases Option.some.inj hc
    exact h

theorem noJump_of_calm {follow : Bool} (h : DirTree.Ahead (Calm fs R) ℓ cs) :
    fs.tree.NoJump (chrootRules R.loc follow) ℓ cs := by
  cases cs with
  | nil => trivial
  | cons c cs =>
    cases c with
    | empty | dot | up => trivial
    | name x => exact fun _ => h

theorem inside_cons (x : Str) (rel : Loc) : inside (x :: rel) = inside rel ++ [.name x] := by
  rw [inside, List.reverse_cons, List.map_append]
  rfl

/-- The part of a text before its end is shortened to a place from which the walk goes on as
from the text itself. -/
theorem walk_cancels (hR : fs.entry R.loc = some .dir) (hv : fs.tree.node v.1 ≠ none) (hu : fs.tree.node u.1 ≠ none)
    (hrel : fs.tree.walk (chrootRules R.loc true) maxSymlinks R.loc (inside rel) = .ok u)
    (hal : fs.tree.Along (chrootRules R.loc true) (DirTree.Ahead (Calm fs R)) maxSymlinks R.loc (inside rel))
    (hw : fs.tree.walk (chrootRules R.loc true) u.2 u.1 cs = .ok v)
    (hcs : fs.tree.Along (chrootRules R.loc true) (DirTree.Ahead (Calm fs R)) u.2 u.1 cs) (hc : Cancels fs R rel cs) :
    fs.tree.walk (chrootRules R.loc true) maxSymlinks R.loc (inside (shorten rel cs)) = .ok v ∧
      fs.tree.Along (chrootRules R.loc true) (DirTree.Ahead (Calm fs R)) maxSymlinks R.loc (inside (shorten rel cs)) := by
  induction cs generalizing rel u with
  | nil =>
    rw [DirTree.walk_nil] at hw
    cases hw
    exact ⟨hrel, hal⟩
  | cons c cs ih =>
    have hd : fs.tree.node R.loc ≠ none := node_rootDir hR
    obtain ⟨m, hm, h1, h2⟩ : ∃ m : Loc × Nat, fs.tree.node m.1 ≠ none ∧
        fs.tree.walk (chrootRules R.loc true) u.2 u.1 [c] = .ok m ∧
        fs.tree.walk (chrootRules R.loc true) m.2 m.1 cs = .ok v := DirTree.walk_split rfl rfl hd hv hu hw
    obtain ⟨ha1, ha2⟩ := (DirTree.along_append rfl rfl hm h1 cs).mp hcs
    have hhere : (c = .empty ∨ c = .dot) → m = u := by
      intro hc
      have h0 : fs.tree.walk (chrootRules R.loc true) u.2 u.1 ([] : List (Comp Str)) = .ok m := by
        have h1 : fs.tree.walk (chrootRules R.loc true) u.2 u.1 ([c] ++ []) = .ok m := h1
        refine DirTree.walk_here ?_ h1
        intro d hd
        exact List.mem_singleton.mp hd ▸ hc
      rw [DirTree.walk_nil] at h0
      exact (Except.ok.inj h0).symm
    cases c with
    | empty =>
      rw [hhere (Or.inl rfl)] at h2 ha2
      exact ih hu hrel hal h2 ha2 hc
    | dot =>
      rw [hhere (Or.inr rfl)] at h2 ha2
      exact ih hu hrel hal h2 ha2 hc
    | up =>
      obtain ⟨⟨y, rel', w, rfl, hw', hdir⟩, hc⟩ := hc
      have hyw : fs.tree.node (y :: w.1) ≠ none := by rw [FileSystem.node_tree, hdir]; nofun
      have hpar : fs.tree.node w.1 ≠ none := by rw [fs.tree.parent_dir hyw]; nofun
      -- the name that is taken away is that of the directory the walk is in
      have hlast : fs.tree.walk (chrootRules R.loc true) w.2 w.1 [.name y] = .ok u := by
        rw [← hrel, inside_cons, DirTree.walk_then rfl rfl rfl rfl (k := w.2) hpar (by simp) hw']
      have hgo : fs.tree.move (chrootRules R.loc true) w.1 (.name y) [] = .go (y :: w.1) := by
        simp only [DirTree.move, FileSystem.node_tree, hdir, Option.map_some, Entry.node]
      rw [DirTree.walk_go hgo, DirTree.walk_nil] at hlast
      have hlast := (Except.ok.inj hlast).symm
      subst hlast
      have hne : y :: w.1 ≠ (chrootRules R.loc true).stop := ha1.head
      have hup : fs.tree.move (chrootRules R.loc true) (y :: w.1) .up [] = .go w.1 := by
        rw [DirTree.move, if_neg (by rw [FileSystem.isFile_of_dir hdir]; decide), Rules.parent, if_neg hne]
        rfl
      rw [DirTree.walk_go hup, DirTree.walk_nil] at h1
      have hmw : m = w := (Except.ok.inj h1).symm
      rw [hmw] at h2 ha2
      rw [inside_cons] at hal
      exact ih hpar hw' ((DirTree.along_append rfl rfl hpar hw' _).mp hal).1 h2 ha2 hc
    | name x =>
      have hrel' : fs.tree.walk (chrootRules R.loc true) maxSymlinks R.loc (inside (x :: rel)) = .ok m := by
        rw [inside_cons, DirTree.walk_then rfl rfl rfl rfl (k := u.2) hu (by simp) hrel]
        exact h1
      have hal' : fs.tree.Along (chrootRules R.loc true) (DirTree.Ahead (Calm fs R)) maxSymlinks R.loc (inside (x :: rel)) := by
        rw [inside_cons]
        exact (DirTree.along_append rfl rfl hu hrel _).mpr ⟨hal, ha1⟩
      exact ih hm hrel' hal' h2 ha2 hc

theorem walk_entry (hD : fs.entry v.1 = some .dir) (hw : fs.tree.walk (chrootRules R.loc true) n ℓ cs = .ok v)
    (hal : fs.tree.Along (chrootRules R.loc true) (DirTree.Ahead (Calm fs R)) n ℓ cs) (b : Str) :
    fs.tree.walk (hostRules false) n ℓ (cs ++ [.name b]) = .ok (b :: v.1, v.2) := by
  have hv : fs.tree.node v.1 ≠ none := by rw [FileSystem.node_tree, hD]; nofun
  have hhost : fs.tree.walk (hostRules true) n ℓ cs = .ok v := by
    rw [← hw]
    exact DirTree.walk_unrooted rfl rfl rfl (hal.mono fun _ _ h => unclamped_of_calm h) (hal.mono fun _ _ h => noJump_of_calm h)
  have hlast : fs.tree.move (hostRules false) v.1 (.name b) [] = .go (b :: v.1) := by
    cases hn : fs.tree.node (b :: v.1) with
    | none => rw [DirTree.move_name_none hn (FileSystem.isFile_of_dir hD)]; rfl
    | some x => cases x <;> simp [DirTree.move, hn, hostRules]
  have hgo : fs.tree.walk (hostRules false) n ℓ (cs ++ [.name b]) = fs.tree.walk (hostRules false) v.2 v.1 [.name b] := by
    refine DirTree.walk_then (r := hostRules true) ?_ ?_ ?_ ?_ hv ?_ hhost
    exacts [rfl, rfl, rfl, rfl, by simp]
  rw [hgo, DirTree.walk_go hlast, DirTree.walk_nil]

theorem shorten_inside (h : Cancels fs R rel cs) : shorten (rel ++ R.loc) cs = shorten rel cs ++ R.loc := by
  induction cs generalizing rel with
  | nil => rfl
  | cons c cs ih =>
    cases c with
    | empty | dot => exact ih h
    | up =>
      obtain ⟨⟨y, rel', -, rfl, -, -⟩, h⟩ := h
      exact ih h
    | name x =>
      have h : Cancels fs R (x :: rel) cs := h
      exact ih h

variable {re : Option (Str → Bool)} {cwd : Loc} {fds : Int → Option Loc} {bufsiz : Nat} {atflags prflags : Word}
  {errno : Option Errno} {d b : Str}

theorem sanitize_entry (R : RootDir) (d : Str) (hb : ValidName b) :
    pathSanitize (R.path ++ (d ++ '/' :: b)) = R.path ++ (d ++ '/' :: b) := by
  have hs : R.path ++ (d ++ '/' :: b) = (R.path ++ d) ++ '/' :: b := (List.append_assoc _ _ _).symm
  have htail := entry_tail hb (R.path ++ d)
  have hkeep := sanitize_keeps (hs ▸ isAbs_path_append R (d ++ '/' :: b)) htail.1 htail.2 []
  rw [List.append_nil, ← hs] at hkeep
  exact (hkeep.eq_of_length_le (trims_sanitize _).part.length_le).symm

/-- What the resolved path of `d/b` denotes for the kernel, when links are not followed. -/
theorem pathResolution2_nofollow (hR : fs.entry R.loc = some .dir) (hd : d = [] ∨ isAbs d = true) (hdn : nul ∉ d)
    (hb : ValidName b) (hf : followSymlink atflags = false) (hbuf : pathMax ≤ bufsiz)
    (hw : fs.tree.walk (chrootRules R.loc true) maxSymlinks R.loc (parse d) = .ok v) (hD : fs.entry v.1 = some .dir)
    (ho : Ordinary re prflags (d ++ '/' :: b)) (hp : ¬ R.path <+: d ++ '/' :: b)
    (hlen : (R.path ++ (d ++ '/' :: b)).length < pathMax)
    (hcalm : fs.tree.Along (chrootRules R.loc true) (DirTree.Ahead (Calm fs R)) maxSymlinks R.loc (parse d))
    (hc : allowWalkAlong prflags = true → Cancels fs R [] (parse d)) (dfd : Int) :
    ∃ buf, Settles (fun fuel => pathResolution2 (fs.host cwd fds) (some R.path) re fuel bufsiz atflags prflags errno dfd
      (d ++ '/' :: b)) (.done buf) ∧ fs.lookup cwd false buf = .ok (b :: v.1) := by
  have hnul : nul ∉ d ++ '/' :: b := by
    intro hm
    rcases List.mem_append.mp hm with hm | hm
    · exact hdn hm
    · rcases List.mem_cons.mp hm with hm | hm
      · exact absurd hm (by decide)
      · exact hb.2.2.1 hm
  have habs : isAbs (d ++ '/' :: b) = true := by
    cases d with
    | nil => rfl
    | cons x d => exact hd.resolve_left (by simp)
  have hparse : parse (d ++ '/' :: b) = parse d ++ [.name b] := by
    rw [parse_append, parse_of_no_slash hb.2.1, compOf_name hb]
  have hsan := sanitize_entry R d hb
  have hkept : allowIgnore prflags = true → ignore re ((pathSanitize (R.path ++ (d ++ '/' :: b))).drop R.path.length) = false := by
    rw [hsan, List.drop_left]
    exact ho.kept
  refine ⟨_, Settles.congr (fun _ => pathResolution2_abs ho hbuf habs hp hlen)
    (finishBuf_unfollowed hf hbuf (Or.inr habs) hnul hlen hkept), ?_⟩
  -- either way the kernel walks from the root directory
  have hdir : fs.tree.node R.loc = some .dir := by rw [FileSystem.node_tree, hR]; rfl
  have hlook : ∀ {q : Str}, q = [] ∨ isAbs q = true → (R.path ++ q).length < pathMax →
      fs.tree.walk (hostRules false) maxSymlinks R.loc (parse q) = .ok (b :: v.1, v.2) →
      fs.lookup cwd false (R.path ++ q) = .ok (b :: v.1) := by
    intro q hq hl hwq
    have hne : R.path ++ q ≠ [] := by simp [R.path_ne_nil]
    rw [FileSystem.lookup, if_neg hne, if_neg (Nat.not_le.mpr hl), isAbs_path_append, if_pos rfl,
      walk_root (FileSystem.clear_of_dir hR) hdir hq, hwq]
    rfl
  by_cases hwa : allowWalkAlong prflags = true
  · have hv : fs.tree.node v.1 ≠ none := by simp [FileSystem.node_tree, hD]
    have hstart : fs.tree.walk (chrootRules R.loc true) maxSymlinks R.loc (inside []) = .ok (R.loc, maxSymlinks) :=
      DirTree.walk_nil _ _
    obtain ⟨hw', hal'⟩ := walk_cancels hR hv (node_rootDir hR) hstart (DirTree.along_nil.mpr trivial) hw hcalm (hc hwa)
    have hsh : shorten R.loc (parse (d ++ '/' :: b)) = (b :: shorten [] (parse d)) ++ R.loc := by
      have h0 : shorten R.loc (parse d) = shorten [] (parse d) ++ R.loc := shorten_inside (hc hwa)
      rw [hparse, shorten_append, h0]
      rfl
    obtain ⟨-, hval, hshort⟩ := resolved_blank (R := R) (Or.inr habs) hnul hlen cwd
    rw [hsh] at hval hshort
    rw [if_pos hwa, hsh, pathOf_append]
    rw [pathOf_append] at hshort
    refine hlook (Or.inr (isAbs_render (by simp))) hshort ?_
    have hvb : ValidLoc (b :: shorten [] (parse d)) := fun c hc => hval c (List.mem_append_left _ hc)
    rw [parse_render hvb, DirTree.walk_go (move_empty (FileSystem.isFile_of_dir hR)), List.reverse_cons, List.map_append]
    exact walk_entry hD hw' hal' b
  · rw [if_neg hwa, hsan]
    refine hlook (Or.inr habs) hlen ?_
    rw [hparse]
    exact walk_entry hD hw hcalm b

end

theorem pathResolution2_nofollow_linked : ∃ buf, Settles (fun fuel => pathResolution2 (linked.host [] fun _ => none)
      (some rootR.path) none fuel pathMax atSymlinkNofollow 0 none atFdcwd
      (['/', 'd', '/', '.', '.', '/', 'e'] ++ '/' :: ['x'])) (.done buf) ∧
    linked.lookup [] false buf = .ok [['x'], ['e'], ['r']] :=
  have hc : Cancels linked rootR [] (parse ['/', 'd', '/', '.', '.', '/', 'e']) :=
    ⟨⟨['d'], [], ([['r']], 40), rfl, rfl, rfl⟩, trivial⟩
  pathResolution2_nofollow (v := ([['e'], ['r']], 40)) (by decide) (by decide) (by decide) (by decide) (by decide) (by decide)
    rfl (by decide) ⟨by decide, by decide, by decide⟩ (by decide) (by decide) (by decide)
    (fun _ => hc) atFdcwd

/-- The link `/r/l` to `/d` is left to the kernel, which finds no `/d`. -/
theorem pathResolution_nofollow_lost : Settles (fun fuel => pathResolution (linked.host [] fun _ => none)
      (some rootR.path) none fuel pathMax atSymlinkNofollow none atFdcwd (['/', 'l'] ++ '/' :: ['x']))
      (.done ['/', 'r', '/', 'l', '/', 'x']) ∧
    linked.lookup [] false ['/', 'r', '/', 'l', '/', 'x'] = .error .ENOENT ∧
    linked.tree.walk (chrootRules rootR.loc true) maxSymlinks rootR.loc (parse ['/', 'l']) = .ok ([['d'], ['r']], 39) ∧
    linked.entry [['d'], ['r']] = some .dir := by
  refine ⟨?_, rfl, rfl, rfl⟩
  refine Settles.congr (fun _ => pathResolution2_abs ⟨by decide, by decide, by decide⟩ (by decide) (by decide) (by decide)
    (by decide)) ?_
  exact finishBuf_unfollowed (by decide) (by decide) (by decide) (by decide) (by decide) (by decide)

end Iamroot
