import Iamroot.Lib.TreeSame
import Iamroot.Nofollow

/-!
# A link that is made and read

`symlinkat` stores its target as it is given, under the resolved path.
`readlinkat` resolves the path without walking along it, and takes the root
directory off what it reads.
-/

namespace Iamroot

open FileTree

/-! ## The host -/

namespace FileSystem

variable (fs : FileSystem)

/-- The location of the name that a path ends with, which no slash follows. -/
def nameOf (cwd : Loc) (path : Str) : Except Errno Loc :=
  if (parse path).getLast? = some .empty then .error .ENOENT else fs.lookup cwd false path

def Free (ℓ : Loc) (t : Str) : Prop :=
  fs.entry ℓ = none ∧ fs.entry ℓ.tail = some .dir ∧ ValidLoc ℓ ∧ t ≠ [] ∧ nul ∉ t

instance (ℓ : Loc) (t : Str) : Decidable (fs.Free ℓ t) := by unfold Free; infer_instance

variable {fs}

def addLink {ℓ : Loc} {t : Str} (h : fs.Free ℓ t) : FileSystem where
  entry := Function.update fs.entry ℓ (some (.link t))
  attr := fs.attr
  root_dir := by
    have hne : [] ≠ ℓ := by
      intro he
      rw [← he, Free, fs.root_dir] at h
      exact absurd h.1 (by simp)
    rw [Function.update_of_ne hne, fs.root_dir]
  parent_dir {c m} hne := by
    by_cases hc : c :: m = ℓ
    · have htail : m = ℓ.tail := by rw [← hc]; rfl
      have hm : m ≠ ℓ := by
        intro hm
        rw [← hm] at hc
        exact absurd hc (List.cons_ne_self c m)
      rw [Function.update_of_ne hm, htail]
      exact h.2.1
    · rw [Function.update_of_ne hc] at hne
      have hdir := fs.parent_dir hne
      have hm : m ≠ ℓ := by
        intro hm
        rw [hm, h.1] at hdir
        cases hdir
      rw [Function.update_of_ne hm, hdir]
  valid {m} hne := by
    by_cases hm : m = ℓ
    · rw [hm]
      exact h.2.2.1
    · rw [Function.update_of_ne hm] at hne
      exact fs.valid hne
  target_ok {m u} he := by
    by_cases hm : m = ℓ
    · rw [hm, Function.update_self, Option.some.injEq, Entry.link.injEq] at he
      rw [← he]
      exact h.2.2.2
    · rw [Function.update_of_ne hm] at he
      exact fs.target_ok he

variable (fs)

def symlinkat (cwd : Loc) (t path : Str) : Except Errno FileSystem :=
  if t = [] then .error .ENOENT
  else if pathMax ≤ t.length then .error .ENAMETOOLONG
  else
    match fs.nameOf cwd path with
    | .error e => .error e
    | .ok ℓ =>
      if h : fs.Free ℓ t then .ok (addLink h)
      else if fs.entry ℓ = none then .error .ENOENT
      else .error .EEXIST

end FileSystem

/-! ## The wrappers -/

def dirOf (cwd : Loc) (fds : Int → Option Loc) (dfd : Int) : Loc := if dfd = atFdcwd then cwd else (fds dfd).getD cwd

def procSelfExe : Str := "/proc/self/exe".toList

section
variable (fs : FileSystem) (cwd : Loc) (fds : Int → Option Loc) (env : Option Str) (re : Option (Str → Bool))
  (errno : Option Errno) (fuel : Nat)

/-- What the two wrappers make of a path, which differ in `prflags`. -/
def linkPath (prflags : Word) (dfd : Int) (path : Str) : Ret Str :=
  pathResolution2 (fs.host cwd fds) env re fuel pathMax atSymlinkNofollow prflags errno dfd path

def symlinkat (string : Str) (dfd : Int) (path : Str) : Ret FileSystem :=
  (linkPath fs cwd fds env re errno fuel 0 dfd path).bind fun buf =>
    match fs.symlinkat (dirOf cwd fds dfd) string buf with
    | .ok fs' => .done fs'
    | .error e => .fail e

variable (execfn : Option Str)

/-- What is copied to the buffer; the return value is its length. -/
def readlinkat (dfd : Int) (path : Str) (bufsiz : Nat) : Ret Str :=
  (linkPath fs cwd fds env re errno fuel prNowalkalong dfd path).bind fun tmp =>
    match if streq tmp procSelfExe then getexe env execfn else none with
    | some exe => .done ((exe.take (strlen exe)).take bufsiz)
    | none =>
      match fs.readlink (dirOf cwd fds dfd) tmp with
      | .ok t => .done ((readlinkatStrip env (t.take pathMax)).take bufsiz)
      | .error e => .fail e

end

/-! ## The root directory taken off a target -/

theorem prefix_of_strleq {a b : Str} (ha : a.length < pathMax) (h : strleq a b = true) : b <+: a := by
  by_cases hb : b.length < pathMax
  · exact (strleq_iff hb).mp h
  · have hlen : strlen b = pathMax := by
      unfold strlen strnlen
      omega
    rw [strleq, strneq, hlen, beq_iff_eq, List.take_of_length_le (Nat.le_of_lt ha)] at h
    have hl := congrArg List.length h
    rw [List.length_take] at hl
    omega

/-- What is left of the target of a link in a root directory, which may be the host's own. -/
def restored (R t : Str) : Str := if R = ['/'] then t else stripped R t

/-- The target begins with the root directory, and not with the characters of it only. -/
def Componentwise (R t : Str) : Prop := R <+: t → R = ['/'] ∨ t = R ∨ R ++ ['/'] <+: t

theorem readlinkatStrip_target (env : Option Str) {t : Str} (hne : t ≠ []) (ht : t.length < pathMax)
    (hc : Componentwise (getrootdir env) t) : readlinkatStrip env t = restored (getrootdir env) t := by
  have hpos := List.length_pos_of_ne_nil hne
  have hslash : (['/'] : Str).take t.length = ['/'] := List.take_of_length_le hpos
  unfold readlinkatStrip restored
  by_cases hroot : getrootdir env = ['/']
  · simp [hroot, strneq]
  · rw [if_neg hroot]
    by_cases hp : getrootdir env <+: t
    · have hle := hp.length_le
      have hlen : strlen (getrootdir env) = (getrootdir env).length := strlen_of_lt (Nat.lt_of_le_of_lt hle ht)
      have h1 : strneq (getrootdir env) ['/'] t.length = false := by
        rw [strneq, hslash, List.take_of_length_le hle]
        simpa using hroot
      have h2 : strleq t (getrootdir env) = true := (strleq_iff (Nat.lt_of_le_of_lt hle ht)).mpr hp
      have hd : (memmoveDown (t ++ [nul]) (getrootdir env).length (t.length - (getrootdir env).length + 1)).take
          (t.length - (getrootdir env).length) = t.drop (getrootdir env).length := by
        have happ : (t ++ [nul]).drop (getrootdir env).length = t.drop (getrootdir env).length ++ [nul] :=
          List.drop_append_of_le_length hle
        have hall : (t.drop (getrootdir env).length ++ [nul]).take (t.length - (getrootdir env).length + 1) =
            t.drop (getrootdir env).length ++ [nul] := List.take_of_length_le (by simp)
        have hdl : (t.drop (getrootdir env).length).length = t.length - (getrootdir env).length := List.length_drop
        rw [memmoveDown, happ, hall, List.append_assoc, ← hdl, List.take_left]
      simp only [h1, h2, hlen, strlen_of_lt ht, Bool.not_true, Bool.false_eq_true, if_false, hd]
      rcases hc hp with h | h | h
      · exact absurd h hroot
      · rw [stripped, if_pos h, if_pos (by rw [h]; omega)]
      · have hl := h.length_le
        rw [List.length_append] at hl
        have hneq : t ≠ getrootdir env := by
          intro e
          rw [← e, List.length_singleton] at hl
          omega
        rw [List.length_singleton] at hl
        rw [stripped, if_neg hneq, if_pos h, if_neg (by omega)]
    · have h2 : strleq t (getrootdir env) = false := by
        rw [← Bool.not_eq_true]
        exact fun h => hp (prefix_of_strleq ht h)
      have hst : stripped (getrootdir env) t = t := by
        unfold stripped
        rw [if_neg fun e => hp (by rw [e]), if_neg fun h => hp ((List.prefix_append _ _).trans h)]
      simp [h2, hst]

/-! ## What the host keeps -/

section
variable {fs fs' : FileSystem} {cwd ℓ : Loc} {t path : Str}

theorem symlinkat_made (h : fs.symlinkat cwd t path = .ok fs') :
    t.length < pathMax ∧ ∃ ℓ, ∃ hfree : fs.Free ℓ t, fs.nameOf cwd path = .ok ℓ ∧ fs' = FileSystem.addLink hfree := by
  unfold FileSystem.symlinkat at h
  split at h
  · cases h
  · split at h
    · cases h
    · rename_i hlen
      refine ⟨Nat.not_le.mp hlen, ?_⟩
      split at h
      · cases h
      · rename_i ℓ hn
        split at h
        · rename_i hfree
          cases h
          exact ⟨ℓ, hfree, hn, rfl⟩
        · split at h <;> cases h

/-- The link is there, under every path that led to its name. -/
theorem readlink_addLink (hfree : fs.Free ℓ t) (hn : fs.nameOf cwd path = .ok ℓ) :
    (FileSystem.addLink hfree).readlink cwd path = .ok t := by
  have hentry : (FileSystem.addLink hfree).entry ℓ = some (.link t) := Function.update_self _ _ _
  have hlink : (FileSystem.addLink hfree).tree.isLink ℓ = true := (FileSystem.isLink_tree ℓ).mpr ⟨t, hentry⟩
  have hnode : ∀ m, m ≠ ℓ → (FileSystem.addLink hfree).tree.node m = fs.tree.node m := by
    intro m hm
    exact congrArg (Option.map Entry.node) (Function.update_of_ne hm _ _)
  unfold FileSystem.nameOf at hn
  split at hn
  · cases hn
  · rename_i hlast
    unfold FileSystem.lookup at hn
    split at hn
    · cases hn
    · rename_i hne
      split at hn
      · cases hn
      · rename_i hlen
        have hlook : (FileSystem.addLink hfree).lookup cwd false path = .ok ℓ := by
          unfold FileSystem.lookup
          rw [if_neg hne, if_neg hlen]
          cases hw : fs.tree.walk (hostRules false) maxSymlinks (if isAbs path then [] else cwd) (parse path) with
          | error e =>
            rw [hw] at hn
            cases hn
          | ok v =>
            obtain ⟨m, k⟩ := v
            rw [hw] at hn
            cases hn
            rw [DirTree.walk_add (FileSystem.node_tree_none.mpr hfree.1) hnode hlink rfl rfl (parse_ne_nil path) hlast hw]
            rfl
        simp only [FileSystem.readlink, hlook, bind, Except.bind, hentry]

end

/-! ## The two paths -/

section
variable {fs fs' : FileSystem} {cwd : Loc} {fds : Int → Option Loc} {env : Option Str} {re : Option (Str → Bool)}
  {errno : Option Errno} {execfn : Option Str} {dfd : Int} {path t buf : Str}

/-- `readlinkat` has a path when `symlinkat` has one, the same in every file system: it asks the
host for descriptors only. -/
theorem linkPath_unwalked (fs fs' : FileSystem) {fuel : Nat}
    (hw : linkPath fs cwd fds env re errno fuel 0 dfd path = .done buf) :
    ∃ tmp, ∀ fuel', linkPath fs cwd fds env re errno fuel' prNowalkalong dfd path = .done tmp ∧
      linkPath fs' cwd fds env re errno fuel' prNowalkalong dfd path = .done tmp := by
  have hfp : (fs'.host cwd fds).fpath = (fs.host cwd fds).fpath := rfl
  have hm : allowMagicLinks prNowalkalong = allowMagicLinks 0 := by decide
  have hi : allowIgnore prNowalkalong = allowIgnore 0 := by decide
  unfold linkPath pathResolution2 at hw ⊢
  rw [hm, hi, hfp]
  by_cases hlen : strnlen path pathMax = pathMax
  · rw [if_pos hlen] at hw
    cases hw
  · rw [if_neg hlen] at hw
    simp only [if_neg hlen]
    by_cases hproc : allowMagicLinks 0 = true ∧ streq path procRoot = true
    · rw [if_pos hproc] at hw
      simp only [if_pos hproc]
      exact ⟨buf, fun _ => ⟨hw, hw⟩⟩
    · rw [if_neg hproc] at hw
      simp only [if_neg hproc]
      by_cases hdev : allowMagicLinks 0 = true ∧ strneq path devFd devFd.length = true
      · rw [if_pos hdev] at hw
        simp only [if_pos hdev]
        exact ⟨buf, fun _ => ⟨hw, hw⟩⟩
      · rw [if_neg hdev] at hw
        simp only [if_neg hdev]
        by_cases hign : allowIgnore 0 = true ∧ ignore re path = true
        · rw [if_pos hign] at hw
          simp only [if_pos hign]
          exact ⟨buf, fun _ => ⟨hw, hw⟩⟩
        · rw [if_neg hign] at hw
          simp only [if_neg hign]
          -- what is left without the second walk does not ask the host
          by_cases habs : isAbs path = true
          · simp only [if_pos habs] at hw ⊢
            cases hs : snprintf (rootOf env ++ _) pathMax with
            | error e =>
              rw [hs] at hw
              cases hw
            | ok buf => exact ⟨_, fun _ => ⟨rfl, rfl⟩⟩
          · simp only [if_neg habs] at hw ⊢
            by_cases hfd : dfd ≠ atFdcwd
            · simp only [if_pos hfd] at hw ⊢
              cases hd : (fs.host cwd fds).fpath dfd with
              | error e =>
                rw [hd] at hw
                cases hw
              | ok dirbuf =>
                simp only [hd] at hw ⊢
                by_cases hrel : isAbs dirbuf = false
                · rw [if_pos hrel] at hw
                  simp only [if_pos hrel]
                  exact ⟨buf, fun _ => ⟨hw, hw⟩⟩
                · rw [if_neg hrel] at hw
                  simp only [if_neg hrel]
                  cases hs : snprintf (dirbuf ++ '/' :: path) pathMax with
                  | error e =>
                    rw [hs] at hw
                    cases hw
                  | ok buf => exact ⟨_, fun _ => ⟨rfl, rfl⟩⟩
            · simp only [if_neg hfd]
              exact ⟨_, fun _ => ⟨rfl, rfl⟩⟩

variable (fs cwd fds env re errno) in
/-- The host's kernel finds one name under the two paths that the wrappers make of `path`. -/
def SameName (dfd : Int) (path : Str) : Prop :=
  ∀ buf tmp, Settles (fun fuel => linkPath fs cwd fds env re errno fuel 0 dfd path) (.done buf) →
    Settles (fun fuel => linkPath fs cwd fds env re errno fuel prNowalkalong dfd path) (.done tmp) →
    fs.nameOf (dirOf cwd fds dfd) tmp = fs.nameOf (dirOf cwd fds dfd) buf

variable (fs cwd fds env re errno execfn) in
def NotExe (dfd : Int) (path : Str) : Prop :=
  ∀ tmp, Settles (fun fuel => linkPath fs cwd fds env re errno fuel prNowalkalong dfd path) (.done tmp) →
    tmp = procSelfExe → getexe env execfn = none

theorem shorten_dotted {cs cs' : List (Comp Str)} (h : DirTree.Dotted cs cs') (ℓ : Loc) : shorten ℓ cs = shorten ℓ cs' := by
  induction h generalizing ℓ with
  | nil => rfl
  | cons c _ ih => cases c <;> exact ih _
  | here x hc _ ih => rcases hc with rfl | rfl <;> exact ih ℓ

theorem nameOf_abs {q b : Str} (hq : (parse q).getLast? = some (.name b)) (ha : isAbs q = true) (hl : q.length < pathMax)
    (dir : Loc) : fs.nameOf dir q = walked (fs.tree.walk (hostRules false) maxSymlinks [] (parse q)) := by
  have hne : q ≠ [] := by
    rintro rfl
    cases ha
  rw [FileSystem.nameOf, hq, if_neg (by simp), FileSystem.lookup, if_neg hne, if_neg (Nat.not_le.mpr hl), if_pos ha]

/-- What the wrappers make of an absolute path that ends in a name: one walks in its text, and the other does not. -/
theorem linkPath_entry {R : RootDir} {d b : Str} (habs : isAbs (d ++ '/' :: b) = true) (hnul : nul ∉ d ++ '/' :: b)
    (hb : ValidName b) (ho : Ordinary re 0 (d ++ '/' :: b)) (hp : ¬R.path <+: d ++ '/' :: b)
    (hlen : (R.path ++ (d ++ '/' :: b)).length < pathMax) {prflags : Word}
    (hm : allowMagicLinks prflags = allowMagicLinks 0) (hi : allowIgnore prflags = allowIgnore 0) :
    Settles (fun fuel => linkPath fs cwd fds (some R.path) re errno fuel prflags dfd (d ++ '/' :: b))
      (.done (if allowWalkAlong prflags then pathOf (shorten R.loc (parse (d ++ '/' :: b)))
        else pathSanitize (R.path ++ (d ++ '/' :: b)))) := by
  have hkept : allowIgnore prflags = true →
      ignore re ((pathSanitize (R.path ++ (d ++ '/' :: b))).drop R.path.length) = false := by
    rw [sanitize_entry R d hb, List.drop_left]
    exact hi ▸ ho.kept
  refine Settles.congr (fun _ => pathResolution2_abs ⟨ho.short, hm ▸ ho.magic, hi ▸ ho.kept⟩ (Nat.le_refl _) habs hp hlen) ?_
  exact finishBuf_unfollowed (by decide) (Nat.le_refl _) (.inr habs) hnul hlen hkept

/-- Where no `..` stands before the name, the two paths differ in dots and slashes only. -/
theorem sameName_of_no_up {R : RootDir} {d b : Str} (hd : d = [] ∨ isAbs d = true) (hdn : nul ∉ d) (hb : ValidName b)
    (hup : .up ∉ parse d) (ho : Ordinary re 0 (d ++ '/' :: b)) (hp : ¬R.path <+: d ++ '/' :: b)
    (hlen : (R.path ++ (d ++ '/' :: b)).length < pathMax) :
    SameName fs cwd fds (some R.path) re errno dfd (d ++ '/' :: b) := by
  intro buf tmp hbuf htmp
  obtain ⟨w, hw⟩ : ∃ w, d ++ '/' :: b = '/' :: w := by
    rcases hd with rfl | hd
    · exact ⟨b, rfl⟩
    · cases d with
      | nil => exact ⟨b, rfl⟩
      | cons x d =>
        cases (by simpa [isAbs] using hd : x = '/')
        exact ⟨_, rfl⟩
  have habs : isAbs (d ++ '/' :: b) = true := by
    rw [hw]
    rfl
  have hnul : nul ∉ d ++ '/' :: b := by
    intro hm
    rcases List.mem_append.mp hm with hm | hm
    · exact hdn hm
    · rcases List.mem_cons.mp hm with hm | hm
      · exact absurd hm (by decide)
      · exact hb.2.2.1 hm
  cases (linkPath_entry habs hnul hb ho hp hlen rfl rfl).unique hbuf
  cases (linkPath_entry habs hnul hb ho hp hlen (by decide) (by decide)).unique htmp
  rw [if_neg (by decide), if_pos (by decide), sanitize_entry R d hb]
  have hparse : parse (d ++ '/' :: b) = parse d ++ [.name b] := by
    rw [parse_append, parse_of_no_slash hb.2.1, compOf_name hb]
  obtain ⟨ns, hns⟩ := DirTree.dotted_names hup
  have hdot : DirTree.Dotted (.empty :: parse w) (ns.map .name ++ [.name b]) := by
    rw [← parse_slash, ← hw, hparse]
    exact hns b
  have hdotw : DirTree.Dotted (parse w) (ns.map .name ++ [.name b]) := by
    generalize hR : ns.map Comp.name ++ [.name b] = names at hdot
    cases hdot with
    | cons _ h => cases ns <;> simp at hR
    | here x _ h => exact h
  have hshorten : shorten R.loc (parse (d ++ '/' :: b)) = b :: (ns.reverse ++ R.loc) := by
    have h := shorten_names R.loc (ns ++ [b])
    rw [List.map_append, List.map_singleton, List.reverse_append] at h
    rw [hparse, shorten_dotted (hns b), h]
    rfl
  obtain ⟨-, hval, hshort⟩ := resolved_blank (R := R) (.inr habs) hnul hlen cwd
  rw [hshorten] at hval hshort ⊢
  have htmp : parse (R.path ++ (d ++ '/' :: b)) = .empty :: (R.loc.reverse.map .name ++ parse w) := by
    rw [hw, parse_append, RootDir.path, parse_render R.valid, List.cons_append]
  have hbuf : parse (pathOf (b :: (ns.reverse ++ R.loc))) =
      .empty :: (R.loc.reverse.map .name ++ (ns.map .name ++ [.name b])) := by
    rw [parse_pathOf hval, if_neg (by simp)]
    simp
  have hlast : (parse (R.path ++ (d ++ '/' :: b))).getLast? = some (.name b) := by
    rw [← List.append_assoc, parse_append, parse_of_no_slash hb.2.1, compOf_name hb, List.getLast?_append_of_ne_nil _ (by simp)]
    rfl
  have hlast' : (parse (pathOf (b :: (ns.reverse ++ R.loc)))).getLast? = some (.name b) := by
    rw [hbuf, ← List.append_assoc, ← List.cons_append, List.getLast?_append_of_ne_nil _ (by simp)]
    rfl
  have hwalk : fs.tree.walk (hostRules false) maxSymlinks [] (parse (R.path ++ (d ++ '/' :: b))) =
      fs.tree.walk (hostRules false) maxSymlinks [] (parse (pathOf (b :: (ns.reverse ++ R.loc)))) := by
    rw [htmp, hbuf]
    exact DirTree.walk_dotted (.cons _ (hdotw.append _))
  rw [nameOf_abs hlast (isAbs_path_append R _) hlen, nameOf_abs hlast' (isAbs_pathOf _) hshort, hwalk]

/-- The target of a link that is made is read back, less the root directory. -/
theorem readlinkat_symlinkat (hsame : SameName fs cwd fds env re errno dfd path)
    (hexe : NotExe fs cwd fds env re errno execfn dfd path) (hc : Componentwise (getrootdir env) t)
    (hmade : Settles (fun fuel => symlinkat fs cwd fds env re errno fuel t dfd path) (.done fs')) (bufsiz : Nat) :
    Settles (fun fuel => readlinkat fs' cwd fds env re errno fuel execfn dfd path bufsiz)
      (.done ((restored (getrootdir env) t).take bufsiz)) := by
  obtain ⟨n, hn⟩ := hmade
  have h0 : symlinkat fs cwd fds env re errno n t dfd path = .done fs' := hn 0
  unfold symlinkat at h0
  cases hbuf : linkPath fs cwd fds env re errno n 0 dfd path with
  | fail e | fault | unfinished =>
    rw [hbuf] at h0
    cases h0
  | done buf =>
    rw [hbuf, Ret.bind] at h0
    have hkernel : fs.symlinkat (dirOf cwd fds dfd) t buf = .ok fs' := by
      cases hk : fs.symlinkat (dirOf cwd fds dfd) t buf with
      | error e =>
        rw [hk] at h0
        cases h0
      | ok fs'' =>
        rw [hk] at h0
        cases h0
        rfl
    obtain ⟨hlen, ℓ, hfree, hname, rfl⟩ := symlinkat_made hkernel
    obtain ⟨tmp, htmp⟩ := linkPath_unwalked fs (FileSystem.addLink hfree) hbuf
    have hsteady : Steady fun fuel => linkPath fs cwd fds env re errno fuel 0 dfd path :=
      pathResolution2_steady (fs.host cwd fds) env re pathMax atSymlinkNofollow 0 errno dfd path
    have hdone : linkPath fs cwd fds env re errno n 0 dfd path ≠ .unfinished := by
      rw [hbuf]
      simp
    have hwriter : Settles (fun fuel => linkPath fs cwd fds env re errno fuel 0 dfd path) (.done buf) :=
      ⟨n, fun k => (hsteady n hdone k).trans hbuf⟩
    have hreader : Settles (fun fuel => linkPath fs cwd fds env re errno fuel prNowalkalong dfd path) (.done tmp) :=
      ⟨0, fun k => (htmp _).1⟩
    have hread := readlink_addLink hfree ((hsame buf tmp hwriter hreader).trans hname)
    have hno : (if streq tmp procSelfExe then getexe env execfn else none) = none := by
      by_cases he : tmp = procSelfExe
      · rw [hexe tmp hreader he, ite_self]
      · rw [streq_false he]
        rfl
    refine ⟨0, fun k => ?_⟩
    change readlinkat (FileSystem.addLink hfree) cwd fds env re errno (0 + k) execfn dfd path bufsiz = _
    unfold readlinkat
    have hpath : linkPath (FileSystem.addLink hfree) cwd fds env re errno (0 + k) prNowalkalong dfd path = .done tmp :=
      (htmp (0 + k)).2
    rw [hpath, Ret.bind, hno, hread]
    simp only
    rw [List.take_of_length_le (Nat.le_of_lt hlen), readlinkatStrip_target env hfree.2.2.2.1 hlen hc]

end

theorem linkPath_linked (fs : FileSystem) (fds : Int → Option Loc) :
    Settles (fun fuel => linkPath fs [] fds (some rootR.path) none none fuel 0 atFdcwd ['/', 'k']) (.done ['/', 'r', '/', 'k']) ∧
      Settles (fun fuel => linkPath fs [] fds (some rootR.path) none none fuel prNowalkalong atFdcwd ['/', 'k'])
        (.done ['/', 'r', '/', 'k']) := by
  constructor
  · refine Settles.congr (fun _ => pathResolution2_abs ⟨by decide, by decide, by decide⟩ (by decide) (by decide) (by decide)
      (by decide)) ?_
    exact finishBuf_unfollowed (by decide) (by decide) (by decide) (by decide) (by decide) (by decide)
  · refine Settles.congr (fun _ => pathResolution2_abs ⟨by decide, by decide, by decide⟩ (by decide) (by decide) (by decide)
      (by decide)) ?_
    exact finishBuf_unfollowed (by decide) (by decide) (by decide) (by decide) (by decide) (by decide)

def targetE : Str := ['/', 'r', '/', 'e']

theorem free_linked : linked.Free [['k'], ['r']] targetE := by decide

theorem symlinkat_linked : Settles (fun fuel => symlinkat linked [] (fun _ => none) (some rootR.path) none none fuel targetE
    atFdcwd ['/', 'k']) (.done (FileSystem.addLink free_linked)) := by
  have hkernel : linked.symlinkat [] targetE ['/', 'r', '/', 'k'] = .ok (FileSystem.addLink free_linked) := rfl
  refine Settles.bind (linkPath_linked linked _).1 ?_
  simp only [dirOf, if_true, hkernel]
  exact Settles.const _

def dottedK : Str := ['/', '.', '/', 'k']

theorem symlinkat_dotted : Settles (fun fuel => symlinkat linked [] (fun _ => none) (some rootR.path) none none fuel targetE
    atFdcwd dottedK) (.done (FileSystem.addLink free_linked)) := by
  have hpath : Settles (fun fuel => linkPath linked [] (fun _ => none) (some rootR.path) none none fuel 0 atFdcwd dottedK)
      (.done ['/', 'r', '/', 'k']) := by
    refine Settles.congr (fun _ => pathResolution2_abs ⟨by decide, by decide, by decide⟩ (by decide) (by decide) (by decide)
      (by decide)) ?_
    exact finishBuf_unfollowed (by decide) (by decide) (by decide) (by decide) (by decide) (by decide)
  have hkernel : linked.symlinkat [] targetE ['/', 'r', '/', 'k'] = .ok (FileSystem.addLink free_linked) := rfl
  refine Settles.bind hpath ?_
  simp only [dirOf, if_true, hkernel]
  exact Settles.const _

/-- The link is made as `/k`, and read by the path that is only trimmed. -/
theorem readlinkat_symlinkat_dotted : Settles (fun fuel => readlinkat (FileSystem.addLink free_linked) []
    (fun _ => none) (some rootR.path) none none fuel none atFdcwd dottedK 16) (.done ['/', 'e']) := by
  have hsame : SameName linked [] (fun _ => none) (some rootR.path) none none atFdcwd (['/', '.'] ++ '/' :: ['k']) :=
    sameName_of_no_up (.inr rfl) (by decide) (by decide) (by decide) ⟨by decide, by decide, by decide⟩ (by decide) (by decide)
  refine readlinkat_symlinkat hsame ?_ ?_ symlinkat_dotted 16
  · intro tmp _ _
    rfl
  · intro _
    exact .inr (.inr (by decide))

/-- The target `/r/e` is read back as `/e`. -/
theorem readlinkat_strips : ¬∀ (fs fs' : FileSystem) (cwd : Loc) (fds : Int → Option Loc) (env : Option Str)
    (re : Option (Str → Bool)) (errno : Option Errno) (execfn : Option Str) (dfd : Int) (path t : Str) (bufsiz : Nat),
    ignore re path = false → t ≠ [] → t.length < pathMax → nul ∉ t → 1 ≤ bufsiz →
      Settles (fun fuel => symlinkat fs cwd fds env re errno fuel t dfd path) (.done fs') →
      Settles (fun fuel => readlinkat fs' cwd fds env re errno fuel execfn dfd path bufsiz) (.done (t.take bufsiz)) := by
  intro h
  have hall := h linked _ [] (fun _ => none) (some rootR.path) none none none atFdcwd ['/', 'k'] targetE 16 (by decide) (by decide)
    (by decide) (by decide) (by decide) symlinkat_linked
  have hread : Settles (fun fuel => readlinkat (FileSystem.addLink free_linked) [] (fun _ => none) (some rootR.path) none none
      fuel none atFdcwd ['/', 'k'] 16) (.done ['/', 'e']) := by
    have hkernel : (FileSystem.addLink free_linked).readlink [] ['/', 'r', '/', 'k'] = .ok targetE := rfl
    refine Settles.bind (linkPath_linked _ _).2 ?_
    simp only [dirOf, if_true, hkernel]
    exact Settles.const _
  exact absurd (hall.unique hread) (by decide)

end Iamroot
