import Iamroot.RealpathLoop

/-!
# The symlink walk in a file system

When links are followed, the host that a file system gives answers
`__realpathat` as one tree: the file system with its absolute links led back
below the root directory. When they are not followed the host is not asked at
all, and the tree is the blank one: the walk only rewrites the text.
-/

namespace Iamroot

open FileTree

def Entry.seen (env : Option Str) : Entry → Entry
  | .link t => .link (Iamroot.seen env t)
  | e => e

namespace FileSystem

/-- The file system as `__realpathat` sees it with `IAMROOT_ROOT` set to `env`. -/
def seenTree (fs : FileSystem) (env : Option Str) : DirTree Str where
  node ℓ := (fs.entry ℓ).map fun e => (e.seen env).node
  root_dir := by rw [fs.root_dir]; rfl
  parent_dir h := by
    rw [fs.parent_dir fun e => h (by rw [e]; rfl)]
    rfl

/-- No file carries the attribute `user.iamroot.path-resolution`. -/
def NoAttr (fs : FileSystem) : Prop := ∀ ℓ, fs.attr ℓ = none

variable {fs : FileSystem} {cwd : Loc}

theorem node_tree (ℓ : Loc) : fs.tree.node ℓ = (fs.entry ℓ).map Entry.node := rfl

theorem node_seen (env : Option Str) (ℓ : Loc) : (fs.seenTree env).node ℓ = (fs.entry ℓ).map fun e => (e.seen env).node :=
  rfl

theorem isFile_tree (ℓ : Loc) : fs.tree.isFile ℓ = true ↔ fs.entry ℓ = some .file := by
  rw [DirTree.isFile, node_tree]
  cases fs.entry ℓ with
  | none => simp
  | some e => cases e <;> simp [Entry.node]

theorem isLink_tree (ℓ : Loc) : fs.tree.isLink ℓ = true ↔ ∃ t, fs.entry ℓ = some (.link t) := by
  rw [DirTree.isLink, node_tree]
  cases fs.entry ℓ with
  | none => simp
  | some e => cases e <;> simp [Entry.node]

theorem isFile_seen (env : Option Str) (ℓ : Loc) : (fs.seenTree env).isFile ℓ = fs.tree.isFile ℓ := by
  rw [DirTree.isFile, DirTree.isFile, node_tree, node_seen]
  cases fs.entry ℓ with
  | none => rfl
  | some e => cases e <;> rfl

theorem isLink_seen (env : Option Str) (ℓ : Loc) : (fs.seenTree env).isLink ℓ = fs.tree.isLink ℓ := by
  rw [DirTree.isLink, DirTree.isLink, node_tree, node_seen]
  cases fs.entry ℓ with
  | none => rfl
  | some e => cases e <;> rfl

theorem clear_seen (env : Option Str) : ∀ {ℓ : Loc}, (fs.seenTree env).Clear ℓ ↔ fs.tree.Clear ℓ
  | [] => Iff.rfl
  | c :: ℓ => by
    rw [DirTree.Clear, DirTree.Clear, clear_seen env, isFile_seen, isLink_seen]

theorem node_seen_link {env : Option Str} {ℓ : Loc} {absolute : Bool} {target : List (Comp Str)}
    (h : (fs.seenTree env).node ℓ = some (.link absolute target)) : ∃ t, fs.entry ℓ = some (.link t) ∧
      absolute = isAbs (seen env t) ∧ target = parse (seen env t) := by
  obtain ⟨e, he, hn⟩ := Option.map_eq_some_iff.mp h
  cases e with
  | dir | file => cases hn
  | link t =>
    simp only [Entry.seen, Entry.node, Node.link.injEq] at hn
    exact ⟨t, he, hn.1.symm, hn.2.symm⟩

theorem node_tree_none {ℓ : Loc} : fs.tree.node ℓ = none ↔ fs.entry ℓ = none := Option.map_eq_none_iff

theorem isFile_of_dir {ℓ : Loc} (h : fs.entry ℓ = some .dir) : fs.tree.isFile ℓ = false := by
  cases hf : fs.tree.isFile ℓ with
  | false => rfl
  | true => rw [(isFile_tree ℓ).mp hf] at h; cases h

theorem entry_drop (hcwd : fs.entry cwd = some .dir) : ∀ n, fs.entry (cwd.drop n) = some .dir
  | 0 => hcwd
  | n + 1 => by
    have ih := entry_drop hcwd n
    rw [← List.drop_drop]
    cases hd : cwd.drop n with
    | nil => exact fs.root_dir
    | cons c ℓ =>
      rw [hd] at ih
      exact fs.parent_dir (c := c) (by rw [List.drop_one, List.tail_cons, ih]; nofun)

theorem dir_of_clear {ℓ : Loc} (hcl : fs.tree.Clear ℓ) (hf : fs.tree.isFile ℓ = false) (hne : fs.entry ℓ ≠ none) :
    fs.entry ℓ = some .dir := by
  cases hx : fs.entry ℓ with
  | none => exact absurd hx hne
  | some x =>
    cases x with
    | dir => rfl
    | file =>
      rw [(isFile_tree ℓ).mpr hx] at hf
      cases hf
    | link t =>
      cases ℓ with
      | nil =>
        rw [fs.root_dir] at hx
        cases hx
      | cons m ℓ =>
        have hl := hcl.2.2
        rw [(isLink_tree _).mpr ⟨t, hx⟩] at hl
        cases hl

theorem clear_of_dir (hcwd : fs.entry cwd = some .dir) : fs.tree.Clear cwd := by
  induction cwd with
  | nil => trivial
  | cons c ℓ ih =>
    have hd := fs.parent_dir (c := c) (ℓ := ℓ) (by rw [hcwd]; nofun)
    refine ⟨ih hd, isFile_of_dir hd, ?_⟩
    cases hl : fs.tree.isLink (c :: ℓ) with
    | false => rfl
    | true =>
      obtain ⟨t, ht⟩ := (isLink_tree _).mp hl
      rw [ht] at hcwd
      cases hcwd

/-! ## What the kernel finds at the output -/

theorem walk_ups {r : Rules Str} (hr : r.stop = []) (n : Nat) (cs : List (Comp Str)) (hcwd : fs.entry cwd = some .dir) :
    ∀ k, fs.tree.walk r n cwd (List.replicate k .up ++ cs) = fs.tree.walk r n (cwd.drop k) cs := by
  intro k
  induction k generalizing cwd with
  | zero => rfl
  | succ k ih =>
    have hm : fs.tree.move r cwd .up (List.replicate k .up ++ cs) = .go (cwd.drop 1) := by
      rw [DirTree.move, if_neg (by rw [isFile_of_dir hcwd]; decide), Rules.parent, hr, List.drop_one]
      cases cwd <;> rfl
    rw [List.replicate_succ, List.cons_append, DirTree.walk_go hm, ih (entry_drop hcwd 1), List.drop_drop, Nat.add_comm]

section
variable {o : Place} {c : Str}

def baseLoc (cwd : Loc) (o : Place) : Loc := if o.base = .cwd then cwd.drop o.nup else []

theorem entry_baseLoc (hcwd : o.base = .cwd → fs.entry cwd = some .dir) : fs.entry (baseLoc cwd o) = some .dir := by
  unfold baseLoc
  split
  · exact entry_drop (hcwd ‹_›) _
  · exact fs.root_dir

theorem walk_path (hcwd : o.base = .cwd → fs.entry cwd = some .dir) (hok : o.Ok) (b : Bool) (n : Nat) (cs : List (Comp Str)) :
    fs.tree.walk (hostRules b) n (if decide (o.base ≠ .cwd) then [] else cwd) (o.path ++ cs) =
      fs.tree.walk (hostRules b) n (baseLoc cwd o) (o.names.reverse.map .name ++ cs) := by
  have hroot : ∀ cs, fs.tree.walk (hostRules b) n [] (.empty :: cs) = fs.tree.walk (hostRules b) n [] cs := by
    intro cs
    apply DirTree.walk_go
    rw [DirTree.move, if_neg (by rw [isFile_of_dir fs.root_dir]; decide)]
  cases hb : o.base with
  | cwd =>
    have hp : o.path ++ cs = List.replicate o.nup .up ++ (o.names.reverse.map .name ++ cs) := by
      simp only [Place.path, hb, Base.text, List.map_nil, List.nil_append, List.append_assoc]
    rw [hp, baseLoc, if_pos hb]
    exact walk_ups rfl n _ (hcwd hb) o.nup
  | one =>
    have hp : o.path ++ cs = .empty :: (o.names.reverse.map .name ++ cs) := by
      rw [Place.path, hb, hok.nup (by rw [hb]; decide)]; rfl
    rw [hp, baseLoc, hb]
    exact hroot _
  | two =>
    have hp : o.path ++ cs = .empty :: .empty :: (o.names.reverse.map .name ++ cs) := by
      rw [Place.path, hb, hok.nup (by rw [hb]; decide)]; rfl
    rw [hp, baseLoc, hb]
    exact (hroot _).trans (hroot _)

variable {env : Option Str} {s : Scan}

theorem lookup_asked (hA : Asked (fs.seenTree env) cwd (fs.entry cwd = some .dir) s o c) (b : Bool) :
    fs.lookup cwd b (addName s.output c) =
      walked (fs.tree.walk (hostRules b) maxSymlinks (baseLoc cwd o) (o.names.reverse.map .name ++ [compOf c])) := by
  have hne : addName o.text c ≠ [] := by
    intro e
    have hl := congrArg List.length e
    rw [Place.length_addName, List.length_nil] at hl
    by_cases hc : c = []
    · cases hn : o.names with
      | nil => exact hA.named hc hn
      | cons m ℓ =>
        have ht : o.text = addName ({ o with names := ℓ } : Place).text m := by simp only [Place.text, hn]; rfl
        have hm := List.length_pos_of_ne_nil (hA.ok.valid m (by simp [hn])).1
        rw [ht, Place.length_addName] at hl
        omega
    · have := List.length_pos_of_ne_nil hc
      omega
  rw [lookup, hA.output, if_neg hne, if_neg (Nat.not_le.mpr hA.short), Place.isAbs_addName hA.ok hA.noSlash,
    Place.parse_addName hA.ok hA.noSlash, walk_path hA.based hA.ok]

theorem loc_eq (o : Place) (cwd : Loc) : o.loc cwd = o.names ++ baseLoc cwd o := rfl

theorem Asked.clear_tree (hA : Asked (fs.seenTree env) cwd (fs.entry cwd = some .dir) s o c) : fs.tree.Clear (o.names.reverse.reverse ++ baseLoc cwd o) := by
  rw [List.reverse_reverse]
  exact (clear_seen env).mp hA.clear

theorem lookup_last (hA : Asked (fs.seenTree env) cwd (fs.entry cwd = some .dir) s o c)
    (he : fs.entry (o.loc cwd) ≠ none) : fs.lookup cwd false (addName s.output c) =
      if fs.tree.isFile (o.loc cwd) then .error .ENOTDIR
      else .ok (match compOf c with
        | .name m => m :: o.loc cwd
        | .up => (o.loc cwd).tail
        | _ => o.loc cwd) := by
  have hn : fs.tree.node (o.names.reverse.reverse ++ baseLoc cwd o) ≠ none := by
    rw [List.reverse_reverse]
    exact fun e => he (node_tree_none.mp e)
  rw [lookup_asked hA, DirTree.walk_names (Asked.clear_tree hA) (Or.inr hn), List.reverse_reverse, ← loc_eq]
  by_cases hf : fs.tree.isFile (o.loc cwd) = true
  · have hstop : fs.tree.move (hostRules false) (o.loc cwd) (compOf c) [] = .stop .notDir := by
      cases hc : compOf c with
      | empty | dot | up => rw [DirTree.move, if_pos hf]
      | name m =>
        have hm : fs.tree.node (m :: o.loc cwd) = none := by
          by_contra hne
          rw [DirTree.isFile_parent hne] at hf
          cases hf
        simp only [DirTree.move, hm, hf, if_true]
    rw [if_pos hf, DirTree.walk_stop hstop]
    rfl
  · have hf' : fs.tree.isFile (o.loc cwd) = false := by simpa using hf
    rw [if_neg hf]
    have hgo : fs.tree.move (hostRules false) (o.loc cwd) (compOf c) [] = .go (match compOf c with
        | .name m => m :: o.loc cwd
        | .up => (o.loc cwd).tail
        | _ => o.loc cwd) := by
      cases hc : compOf c with
      | empty | dot => rw [DirTree.move, if_neg hf]
      | up =>
        rw [DirTree.move, if_neg hf, Rules.parent]
        cases o.loc cwd <;> rfl
      | name m =>
        cases hn : fs.tree.node (m :: o.loc cwd) with
        | none => rw [DirTree.move_name_none hn hf']; rfl
        | some x => cases x <;> simp [DirTree.move, hn, hostRules]
    rw [DirTree.walk_go hgo, DirTree.walk_nil]
    rfl

theorem readlink_missing (hA : Asked (fs.seenTree env) cwd (fs.entry cwd = some .dir) s o c)
    (he : fs.entry (o.loc cwd) = none) : fs.readlink cwd (addName s.output c) = .error .ENOENT := by
  have hb := entry_baseLoc hA.based
  have hm := DirTree.walk_names_missing [compOf c] rfl (r := hostRules false) (n := maxSymlinks) (Asked.clear_tree hA)
    (fun e => by rw [node_tree_none.mp e] at hb; cases hb)
    (by rw [List.reverse_reverse]; exact node_tree_none.mpr he)
  unfold readlink
  rw [lookup_asked hA]
  rcases hm with hm | ⟨ℓ, hℓ, hm⟩
  · rw [hm]; rfl
  · have hnone := node_tree_none.mp hℓ
    rw [hm]
    simp [bind, Except.bind, walked, hnone]

theorem readlink_file (hA : Asked (fs.seenTree env) cwd (fs.entry cwd = some .dir) s o c)
    (hf : fs.tree.isFile (o.loc cwd) = true) : fs.readlink cwd (addName s.output c) = .error .ENOTDIR := by
  unfold readlink
  rw [lookup_last hA (by rw [(isFile_tree _).mp hf]; nofun), if_pos hf]
  rfl

theorem readlink_link (hA : Asked (fs.seenTree env) cwd (fs.entry cwd = some .dir) s o c) (hc : ValidName c)
    {t : Str} (ht : fs.entry (c :: o.loc cwd) = some (.link t)) : fs.readlink cwd (addName s.output c) = .ok t := by
  have hd := fs.parent_dir (c := c) (ℓ := o.loc cwd) (by rw [ht]; nofun)
  unfold readlink
  rw [lookup_last hA (by rw [hd]; nofun), if_neg (by rw [isFile_of_dir hd]; decide), compOf_name hc]
  simp [bind, Except.bind, ht]

theorem readlink_plain (hA : Asked (fs.seenTree env) cwd (fs.entry cwd = some .dir) s o c)
    (hf : fs.tree.isFile (o.loc cwd) = false) (hl : ValidName c → fs.tree.isLink (c :: o.loc cwd) = false) :
    fs.readlink cwd (addName s.output c) = .error .ENOENT ∨ fs.readlink cwd (addName s.output c) = .error .EINVAL := by
  cases he : fs.entry (o.loc cwd) with
  | none => exact Or.inl (readlink_missing hA he)
  | some e =>
    have hcl := (clear_seen env).mp hA.clear
    have hd := dir_of_clear hcl hf (by rw [he]; nofun)
    unfold readlink
    rw [lookup_last hA (by rw [he]; nofun), if_neg (by rw [hf]; decide)]
    cases hc : compOf c with
    | empty | dot => right; simp [bind, Except.bind, hd]
    | up =>
      right
      have : fs.entry (o.loc cwd).tail = some .dir := by
        rw [← List.drop_one]; exact entry_drop hd 1
      simp [bind, Except.bind, this]
    | name m =>
      have hmc : m = c := compOf_eq_name hc
      subst hmc
      have hval : ValidName m := by
        refine ⟨?_, hA.noSlash, hA.noNul, ?_, ?_⟩ <;> rintro rfl <;> cases hc
      have hln := hl hval
      cases hx : fs.entry (m :: o.loc cwd) with
      | none => left; simp [bind, Except.bind, hx]
      | some x =>
        cases x with
        | dir | file => right; simp [bind, Except.bind, hx]
        | link t =>
          rw [(isLink_tree _).mpr ⟨t, hx⟩] at hln
          cases hln

theorem getxattr_error (h : fs.NoAttr) (cwd : Loc) (p : Str) : ∃ e, fs.getxattr cwd p = .error e := by
  unfold getxattr
  cases hl : fs.lookup cwd true p with
  | error e => exact ⟨e, rfl⟩
  | ok ℓ =>
    by_cases hn : (fs.entry ℓ).isNone = true
    · exact ⟨.ENOENT, by simp [bind, Except.bind, hn]⟩
    · exact ⟨.ENODATA, by simp [bind, Except.bind, hn, h ℓ]⟩

end

/-! ## The answers -/

section
variable {h : Host} {env : Option Str} {errno : Option Errno} {atflags : Word} {s : Scan} {o : Place} {c : Str}

theorem look_follow (hf : followSymlink atflags = true) (hx : ∃ e, h.getxattr (addName s.output c) = .error e) :
    look h env errno atflags s c =
      readlinkTurn h env errno { s with errno := errno } (piece s.output c) c.length (c = dotdot) := by
  obtain ⟨e, he⟩ := hx
  rw [look, if_neg (by rw [hf]; decide), getxattrTurn, ← addName_eq]
  simp [Iamroot.getxattr, he, bind, Except.bind]

theorem readlink_room {s : Scan} (hroom : 0 < s.p) (p : Str) : Iamroot.readlink h p s.p = (h.readlink p).map (·.take s.p) := by
  rw [Iamroot.readlink, if_neg (by omega)]

section
variable (fds : Int → Option Loc) (hA : Asked (fs.seenTree env) cwd (fs.entry cwd = some .dir) s o c)
include hA

theorem readlinkTurn_file (hfile : fs.tree.isFile (o.loc cwd) = true) :
    readlinkTurn (fs.host cwd fds) env errno s (piece s.output c) c.length (c = dotdot) = .fail .ENOTDIR := by
  have hr : Iamroot.readlink (fs.host cwd fds) (addName s.output c) s.p = .error .ENOTDIR := by
    rw [readlink_room hA.room]
    show (fs.readlink cwd (addName s.output c)).map _ = _
    rw [readlink_file hA hfile]; rfl
  rw [readlinkTurn]
  simp only [← addName_eq, hr]
  rfl

theorem readlinkTurn_link (hc : ValidName c) {txt : Str} (ht : fs.entry (c :: o.loc cwd) = some (.link txt)) :
    readlinkTurn (fs.host cwd fds) env errno s (piece s.output c) c.length (c = dotdot) =
      if s.p ≤ txt.length then .fail .ENAMETOOLONG
      else if s.cnt + 1 = symloopMax then .fail .ELOOP else followLink env s txt := by
  have hr : Iamroot.readlink (fs.host cwd fds) (addName s.output c) s.p = .ok (txt.take s.p) := by
    rw [readlink_room hA.room]
    show (fs.readlink cwd (addName s.output c)).map _ = _
    rw [readlink_link hA hc ht]
    rfl
  have hpos := List.length_pos_of_ne_nil (fs.target_ok ht).1
  rw [readlinkTurn]
  simp only [← addName_eq, hr]
  by_cases hle : s.p ≤ txt.length
  · rw [if_pos (by rw [List.length_take]; omega), if_pos hle]
  · rw [List.take_of_length_le (by omega), if_neg (by omega), if_neg (by omega), if_neg hle]

theorem readlinkTurn_plain (hfile : fs.tree.isFile (o.loc cwd) = false)
    (hl : ValidName c → fs.tree.isLink (c :: o.loc cwd) = false) :
    ∃ e, readlinkTurn (fs.host cwd fds) env errno s (piece s.output c) c.length (c = dotdot) =
      skipReadlink { s with errno := e } (piece s.output c) c.length (c = dotdot) := by
  have hr : ∀ e, fs.readlink cwd (addName s.output c) = .error e →
      Iamroot.readlink (fs.host cwd fds) (addName s.output c) s.p = .error e := by
    intro e he
    rw [readlink_room hA.room]
    show (fs.readlink cwd (addName s.output c)).map _ = _
    rw [he]; rfl
  rw [readlinkTurn]
  rcases readlink_plain hA hfile hl with he | he
  · refine ⟨some .ENOENT, ?_⟩
    simp only [← addName_eq, hr _ he, if_true]
  · refine ⟨errno, ?_⟩
    simp only [← addName_eq, hr _ he]
    rfl

variable (hf : followSymlink atflags = true) (hx : ∃ e, fs.getxattr cwd (addName s.output c) = .error e)
include hf hx

theorem look_file (hfile : fs.tree.isFile (o.loc cwd) = true) : look (fs.host cwd fds) env errno atflags s c = .fail .ENOTDIR := by
  rw [look_follow (h := fs.host cwd fds) hf hx]
  exact readlinkTurn_file fds (s := { s with errno := errno }) { hA with } hfile

theorem look_link (hc : ValidName c) {txt : Str} (ht : fs.entry (c :: o.loc cwd) = some (.link txt)) (hlt : txt.length < s.p) :
    look (fs.host cwd fds) env errno atflags s c =
      if s.cnt + 1 = symloopMax then .fail .ELOOP else followLink env { s with errno := errno } txt := by
  rw [look_follow (h := fs.host cwd fds) hf hx]
  exact (readlinkTurn_link fds (s := { s with errno := errno }) { hA with } hc ht).trans (if_neg (Nat.not_le.mpr hlt))

theorem look_plain (hfile : fs.tree.isFile (o.loc cwd) = false) (hl : ValidName c → fs.tree.isLink (c :: o.loc cwd) = false) :
    ∃ e, look (fs.host cwd fds) env errno atflags s c =
      skipReadlink { s with errno := e } (piece s.output c) c.length (c = dotdot) := by
  rw [look_follow (h := fs.host cwd fds) hf hx]
  exact readlinkTurn_plain fds (s := { s with errno := errno }) { hA with } hfile hl

end

theorem nul_not_mem_seen {txt : Str} (hroot : nul ∉ getrootdir env) (ht : nul ∉ txt) : nul ∉ Iamroot.seen env txt := by
  unfold Iamroot.seen
  rw [List.mem_append, not_or]
  refine ⟨?_, ht⟩
  split
  · exact fun hm => hroot (List.mem_of_mem_take hm)
  · nofun

/-- When links are followed, the host answers as the tree of the file system. -/
theorem sees_follow (hattr : fs.NoAttr) (cwd : Loc) (hroot : nul ∉ getrootdir env)
    (fds : Int → Option Loc) (errno : Option Errno) (hf : followSymlink atflags = true) :
    Sees (fs.host cwd fds) env errno atflags (fs.seenTree env) cwd (fs.entry cwd = some .dir) where
  file hA hfile := look_file fds hA hf (getxattr_error hattr cwd _) ((isFile_seen env _).symm.trans hfile)
  link hA hc hn := by
    obtain ⟨txt, ht, rfl, rfl⟩ := node_seen_link hn
    obtain ⟨hne, hnul⟩ := fs.target_ok ht
    exact ⟨txt, hne, nul_not_mem_seen hroot hnul, rfl, rfl,
      fun hlt => ⟨errno, look_link fds hA hf (getxattr_error hattr cwd _) hc ht hlt⟩⟩
  plain hA hfile hl := look_plain fds hA hf (getxattr_error hattr cwd _) ((isFile_seen env _).symm.trans hfile)
    fun hv => (isLink_seen env _).symm.trans (hl hv)

theorem isFile_blank (ℓ : Loc) : (DirTree.blank : DirTree Str).isFile ℓ = false := by
  cases ℓ <;> rfl

theorem isLink_blank (ℓ : Loc) : (DirTree.blank : DirTree Str).isLink ℓ = false := by
  cases ℓ <;> rfl

theorem clear_blank : ∀ ℓ : Loc, (DirTree.blank : DirTree Str).Clear ℓ
  | [] => trivial
  | c :: ℓ => ⟨clear_blank ℓ, isFile_blank ℓ, isLink_blank (c :: ℓ)⟩

end

end FileSystem

/-- When links are not followed, any host will do. -/
theorem sees_nofollow {atflags : Word} (h : Host) (env : Option Str) (errno : Option Errno) (cwd : Loc) (W : Prop)
    (hf : followSymlink atflags = false) : Sees h env errno atflags DirTree.blank cwd W where
  file _ hfile := by
    rw [FileSystem.isFile_blank] at hfile
    cases hfile
  link {s o c absolute target} _ _ hn := by
    have := FileSystem.isLink_blank (c :: o.loc cwd)
    simp [DirTree.isLink, hn] at this
  plain {s o c} _ _ _ := ⟨s.errno, by rw [look, if_pos hf]⟩

def FileSystem.walkTree (fs : FileSystem) (env : Option Str) (atflags : Word) : DirTree Str :=
  if followSymlink atflags then fs.seenTree env else DirTree.blank

theorem FileSystem.getcwd_of_dir {fs : FileSystem} {cwd : Loc} (fds : Int → Option Loc)
    (h : fs.entry cwd = some .dir ∧ (pathOf cwd).length < pathMax) :
    (fs.host cwd fds).getcwd = .ok (pathOf cwd) ∧ (pathOf cwd).length < pathMax ∧ ValidLoc cwd :=
  ⟨if_pos h.2, h.2, fs.valid (by rw [h.1]; nofun)⟩

theorem Sees.short {h : Host} {env : Option Str} {errno : Option Errno} {atflags : Word} {t : DirTree Str} {cwd : Loc} {W X : Prop}
    (hs : Sees h env errno atflags t cwd W) : Sees h env errno atflags t cwd (W ∧ X) where
  file hA := hs.file { hA with based := fun h => (hA.based h).1 }
  link hA := hs.link { hA with based := fun h => (hA.based h).1 }
  plain hA := hs.plain { hA with based := fun h => (hA.based h).1 }

/-- What `__realpathat` returns in a file system without attributes. The working directory
matters to relative paths only. -/
theorem realpathat_fs {fs : FileSystem} {env : Option Str} {atflags : Word} {cwd : Loc} {path : Str} {r : Except Err Place}
    (hattr : followSymlink atflags = true → fs.NoAttr) (hcwd : isAbs path = false → fs.entry cwd = some .dir ∧ (pathOf cwd).length < pathMax)
    (hroot : nul ∉ getrootdir env) (fds : Int → Option Loc) (errno : Option Errno) (hne : path ≠ [])
    (hlen : path.length < pathMax) (hnul : nul ∉ path) (hr : resolved (fs.walkTree env atflags) cwd path = some r) :
    ∃ n, ∀ k, realpathat (fs.host cwd fds) env errno (n + k) path atflags = result cwd r := by
  unfold FileSystem.walkTree at hr
  by_cases hf : followSymlink atflags = true
  · rw [if_pos hf] at hr
    have hsee := FileSystem.sees_follow (hattr hf) cwd hroot fds errno hf
    refine realpathat_eq hsee.short (FileSystem.getcwd_of_dir fds) (fun h => ?_) hne hlen hnul hr
    refine ⟨hcwd h, (FileSystem.clear_seen env).mpr (FileSystem.clear_of_dir (hcwd h).1), ?_⟩
    exact (FileSystem.isFile_seen env cwd).trans (FileSystem.isFile_of_dir (hcwd h).1)
  · rw [if_neg hf] at hr
    refine realpathat_eq (sees_nofollow _ env errno cwd _ (by simpa using hf)) (FileSystem.getcwd_of_dir fds) (fun h => ?_) hne hlen hnul hr
    exact ⟨hcwd h, FileSystem.clear_blank cwd, FileSystem.isFile_blank cwd⟩

end Iamroot
