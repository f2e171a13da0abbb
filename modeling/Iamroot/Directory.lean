import Iamroot.Lib.Edit
import Iamroot.Lib.Run
import Iamroot.Symlink

/-!
# Calls that change directories

The library resolves the paths of a call and makes the same call of the host
with what it got. The kernel's calls are those of a process with any root
directory, the host's own among them: they are what the guest would get in a
kernel that has changed the root. Each of them works on the locations of the
last names of its paths.
-/

namespace Iamroot

open FileTree

/-! ## The kernel -/

inductive DirError where
  | of (e : Errno)
  | EISDIR
  | ENOTEMPTY
  deriving DecidableEq

def Entry.sound : Entry → Bool
  | .link t => !t.isEmpty && !t.contains nul
  | _ => true

theorem Entry.sound_link {t : Str} : (Entry.link t).sound = true ↔ t ≠ [] ∧ nul ∉ t := by
  simp [Entry.sound]

namespace FileSystem

variable (fs : FileSystem)

theorem rooted : Rooted .dir fs.entry := ⟨fs.root_dir, fs.parent_dir⟩

/-- The location that a path leads to in a process with the root directory `T` that works in `cwd`. -/
def lookupIn (T cwd : Loc) (follow : Bool) (path : Str) : Except Errno Loc :=
  if path = [] then .error .ENOENT
  else if pathMax ≤ path.length then .error .ENAMETOOLONG
  else walked (fs.tree.walk (chrootRules T follow) maxSymlinks (if isAbs path then T else cwd) (parse path))

/-- The location of the name that a path ends with, which no slash follows. -/
def nameIn (T cwd : Loc) (path : Str) : Except Errno Loc :=
  if (parse path).getLast? = some .empty then .error .ENOENT else fs.lookupIn T cwd false path

def Room (ℓ : Loc) (e : Entry) : Prop := fs.entry ℓ = none ∧ fs.entry ℓ.tail = some .dir ∧ ValidLoc ℓ ∧ e.sound = true

instance (ℓ : Loc) (e : Entry) : Decidable (fs.Room ℓ e) := by unfold Room; infer_instance

def Movable (src dst : Loc) : Prop :=
  fs.entry src ≠ none ∧ ¬ src <:+ dst ∧ ¬ dst <:+ src ∧ fs.entry dst.tail = some .dir ∧ ValidLoc dst

instance (src dst : Loc) : Decidable (fs.Movable src dst) := by unfold Movable; infer_instance

variable {fs}

def put {ℓ : Loc} {e : Entry} (h : fs.Room ℓ e) : FileSystem where
  entry := assign fs.entry ℓ e
  attr := fs.attr
  root_dir := (fs.rooted.assign h.1 h.2.1).root
  parent_dir := (fs.rooted.assign h.1 h.2.1).parent
  valid {k} hk := by
    by_cases he : k = ℓ
    · rw [he]
      exact h.2.2.1
    · rw [assign_ne _ _ he] at hk
      exact fs.valid hk
  target_ok {k t} hk := by
    by_cases he : k = ℓ
    · rw [he, assign_self, Option.some.injEq] at hk
      have hs := h.2.2.2
      rw [hk] at hs
      exact Entry.sound_link.mp hs
    · rw [assign_ne _ _ he] at hk
      exact fs.target_ok hk

def erased {ℓ : Loc} (h : ℓ ≠ [] ∧ Childless fs.entry ℓ) : FileSystem where
  entry := erase fs.entry ℓ
  attr := erase fs.attr ℓ
  root_dir := (fs.rooted.erase h.1 h.2).root
  parent_dir := (fs.rooted.erase h.1 h.2).parent
  valid {k} hk := by
    refine fs.valid fun hn => hk ?_
    by_cases he : k = ℓ
    · rw [he, erase_self]
    · rw [erase_ne _ he, hn]
  target_ok {k t} hk := by
    by_cases he : k = ℓ
    · rw [he, erase_self] at hk
      cases hk
    · rw [erase_ne _ he] at hk
      exact fs.target_ok hk

theorem Movable.rooted {src dst : Loc} (h : fs.Movable src dst) (x : Bool) : Rooted .dir (moved x src dst fs.entry) :=
  fs.rooted.moved h.2.1 h.2.2.1 h.1 h.2.2.2.1

def carried {src dst : Loc} (x : Bool) (h : fs.Movable src dst) : FileSystem where
  entry := moved x src dst fs.entry
  attr := moved x src dst fs.attr
  root_dir := (h.rooted x).root
  parent_dir := (h.rooted x).parent
  valid {k} hk := by
    obtain ⟨e, he⟩ := Option.ne_none_iff_exists'.mp hk
    obtain ⟨k', ho, hk'⟩ := Option.bind_eq_some_iff.mp he
    have hv : ValidLoc k' := fs.valid (by rw [hk']; simp)
    have hsrc : ValidLoc src := fs.valid h.1
    have hput : ∀ {pre u w : Loc}, ValidLoc w → ValidLoc (pre ++ u) → ValidLoc (pre ++ w) := by
      intro pre u w hw hu c hc
      rcases List.mem_append.mp hc with hc | hc
      · exact hu c (List.mem_append_left u hc)
      · exact hw c hc
    by_cases hd : dst <:+ k
    · obtain ⟨pre, rfl⟩ := hd
      rw [origin_dst, Option.some.injEq] at ho
      exact hput h.2.2.2.2 (ho ▸ hv)
    · by_cases hs : src <:+ k
      · obtain ⟨pre, rfl⟩ := hs
        rw [origin_src (not_suffix_append h.2.1 h.2.2.1)] at ho
        split at ho
        · cases ho
          exact hput hsrc hv
        · cases ho
      · rw [origin_other hd hs, Option.some.injEq] at ho
        rw [ho]
        exact hv
  target_ok {k t} hk := by
    obtain ⟨k', -, hk'⟩ := Option.bind_eq_some_iff.mp hk
    exact fs.target_ok hk'

variable (fs)

def make (ℓ : Loc) (e : Entry) : Except DirError FileSystem :=
  if h : fs.Room ℓ e then .ok (put h)
  else if fs.entry ℓ = none then .error (.of .ENOENT)
  else .error (.of .EEXIST)

open Classical in
noncomputable def drop (ℓ : Loc) : Except DirError FileSystem :=
  if h : ℓ ≠ [] ∧ Childless fs.entry ℓ then .ok (erased h) else .error .ENOTEMPTY

noncomputable def unlink (ℓ : Loc) : Except DirError FileSystem :=
  match fs.entry ℓ with
  | none => .error (.of .ENOENT)
  | some .dir => .error .EISDIR
  | some _ => fs.drop ℓ

noncomputable def rmdir (ℓ : Loc) : Except DirError FileSystem :=
  match fs.entry ℓ with
  | none => .error (.of .ENOENT)
  | some .dir => fs.drop ℓ
  | some _ => .error (.of .ENOTDIR)

/-- `open` with `O_CREAT|O_WRONLY`. -/
def create (ℓ : Loc) : Except DirError FileSystem :=
  match fs.entry ℓ with
  | none => fs.make ℓ .file
  | some .dir => .error .EISDIR
  | some .file => .ok fs
  | some (.link _) => .error (.of .ELOOP)

def carry (x : Bool) (src dst : Loc) : Except DirError FileSystem :=
  if h : fs.Movable src dst then .ok (carried x h) else .error (.of .ENOENT)

def renameNoreplace : Word := 1

def renameExchange : Word := 2

open Classical in
noncomputable def rename (flags : Word) (src dst : Loc) : Except DirError FileSystem :=
  if flags ≠ 0 ∧ flags ≠ renameNoreplace ∧ flags ≠ renameExchange then .error (.of .EINVAL)
  else if fs.entry src = none then .error (.of .ENOENT)
  else if flags = renameNoreplace ∧ fs.entry dst ≠ none then .error (.of .EEXIST)
  else if flags = renameExchange ∧ fs.entry dst = none then .error (.of .ENOENT)
  else if src = dst then .ok fs
  else if src <:+ dst then .error (.of .EINVAL)
  else if dst <:+ src then .error (if flags = renameExchange then .of .EINVAL else .ENOTEMPTY)
  else if flags = renameExchange then fs.carry true src dst
  else
    match fs.entry dst with
    | none => fs.carry false src dst
    | some .dir =>
      if fs.entry src ≠ some .dir then .error .EISDIR
      else if Childless fs.entry dst then fs.carry false src dst
      else .error .ENOTEMPTY
    | some _ => if fs.entry src = some .dir then .error (.of .ENOTDIR) else fs.carry false src dst

end FileSystem

def atRemovedir : Word := 0x200

/-- The calls of the guest and of the library. An `openat` stands for the ones with `O_CREAT|O_WRONLY|O_TRUNC`. -/
inductive DirCall where
  | mkdirat (dfd : Int) (path : Str)
  | openat (dfd : Int) (path : Str)
  | symlinkat (string : Str) (dfd : Int) (path : Str)
  | unlinkat (dfd : Int) (path : Str) (atflags : Word)
  | rmdir (path : Str)
  | remove (path : Str)
  | renameat (olddfd : Int) (oldpath : Str) (newdfd : Int) (newpath : Str)
  | renameat2 (olddfd : Int) (oldpath : Str) (newdfd : Int) (newpath : Str) (flags : Word)

def located (r : Except Errno Loc) (f : Loc → Except DirError FileSystem) : Except DirError FileSystem :=
  match r with
  | .ok ℓ => f ℓ
  | .error e => .error (.of e)

noncomputable def DirCall.run (fs : FileSystem) (T cwd : Loc) (fds : Int → Option Loc) : DirCall → Except DirError FileSystem
  | .mkdirat dfd path => located (fs.lookupIn T (dirOf cwd fds dfd) false path) fun ℓ => fs.make ℓ .dir
  | .openat dfd path => located (fs.lookupIn T (dirOf cwd fds dfd) true path) fs.create
  | .symlinkat string dfd path =>
    if string = [] then .error (.of .ENOENT)
    else if pathMax ≤ string.length then .error (.of .ENAMETOOLONG)
    else located (fs.nameIn T (dirOf cwd fds dfd) path) fun ℓ => fs.make ℓ (.link string)
  | .unlinkat dfd path atflags =>
    if atflags ≠ 0 ∧ atflags ≠ atRemovedir then .error (.of .EINVAL)
    else if atflags = atRemovedir then located (fs.lookupIn T (dirOf cwd fds dfd) false path) fs.rmdir
    else located (fs.nameIn T (dirOf cwd fds dfd) path) fs.unlink
  | .rmdir path => located (fs.lookupIn T (dirOf cwd fds atFdcwd) false path) fs.rmdir
  | .remove path =>
    located (fs.nameIn T (dirOf cwd fds atFdcwd) path) fun ℓ =>
      match fs.unlink ℓ with
      | .error .EISDIR => fs.rmdir ℓ
      | r => r
  | .renameat olddfd oldpath newdfd newpath =>
    located (fs.lookupIn T (dirOf cwd fds olddfd) false oldpath) fun src =>
      located (fs.lookupIn T (dirOf cwd fds newdfd) false newpath) fun dst => fs.rename 0 src dst
  | .renameat2 olddfd oldpath newdfd newpath flags =>
    located (fs.lookupIn T (dirOf cwd fds olddfd) false oldpath) fun src =>
      located (fs.lookupIn T (dirOf cwd fds newdfd) false newpath) fun dst => fs.rename flags src dst

/-! ## What a call leaves alone -/

/-- What does not lie below `T` is as it was, and no file has got an attribute. -/
def FileSystem.Inside (T : Loc) (fs fs' : FileSystem) : Prop :=
  AgreeOutside T fs.entry fs'.entry ∧ (fs.NoAttr → fs'.NoAttr)

namespace FileSystem

variable {fs fs' : FileSystem} {T ℓ src dst : Loc}

theorem Inside.refl (T : Loc) (fs : FileSystem) : Inside T fs fs := ⟨.refl T _, fun h => h⟩

theorem Inside.dir (h : Inside T fs fs') (hT : fs.entry T = some .dir) : fs'.entry T = some .dir := h.1.top.trans hT

theorem below_of_none (hT : fs.entry T = some .dir) (hℓ : T <:+ ℓ) (hn : fs.entry ℓ = none) : ∃ n, n :: T <:+ ℓ := by
  obtain ⟨pre, rfl⟩ := hℓ
  cases pre using List.reverseRecOn with
  | nil =>
    rw [List.nil_append, hT] at hn
    cases hn
  | append_singleton pre n =>
    refine ⟨n, pre, ?_⟩
    rw [List.append_assoc, List.singleton_append]

theorem below_cons (n : Str) (hℓ : T <:+ ℓ) : ∃ n', n' :: T <:+ n :: ℓ := by
  obtain ⟨pre, rfl⟩ := hℓ
  cases pre using List.reverseRecOn with
  | nil => exact ⟨n, List.suffix_rfl⟩
  | append_singleton pre m =>
    refine ⟨m, n :: pre, ?_⟩
    rw [List.append_assoc, List.singleton_append, List.cons_append]

theorem passed {α ε : Type} {c : Prop} [Decidable c] {e : ε} {x : Except ε α} {y : α}
    (h : (if c then .error e else x) = .ok y) : x = .ok y := by
  by_cases hc : c
  · rw [if_pos hc] at h
    cases h
  · rwa [if_neg hc] at h

theorem make_inside {e : Entry} (hT : fs.entry T = some .dir) (hℓ : T <:+ ℓ) (h : fs.make ℓ e = .ok fs') : Inside T fs fs' := by
  unfold make at h
  split at h
  · rename_i hroom
    cases h
    obtain ⟨n, hn⟩ := below_of_none hT hℓ hroom.1
    exact ⟨agreeOutside_update hn _, fun ha => ha⟩
  · split at h <;> cases h

theorem create_inside (hT : fs.entry T = some .dir) (hℓ : T <:+ ℓ) (h : fs.create ℓ = .ok fs') : Inside T fs fs' := by
  unfold create at h
  split at h
  · exact make_inside hT hℓ h
  · cases h
  · cases h
    exact .refl T fs
  · cases h

theorem drop_inside {n : Str} (hℓ : n :: T <:+ ℓ) (h : fs.drop ℓ = .ok fs') : Inside T fs fs' := by
  unfold drop at h
  split at h
  · cases h
    refine ⟨agreeOutside_update hℓ _, fun ha k => ?_⟩
    by_cases he : k = ℓ
    · rw [he]
      exact erase_self _ _
    · exact (erase_ne _ he).trans (ha k)
  · cases h

theorem unlink_inside {n : Str} (hℓ : n :: T <:+ ℓ) (h : fs.unlink ℓ = .ok fs') : Inside T fs fs' := by
  unfold unlink at h
  split at h
  · cases h
  · cases h
  · exact drop_inside hℓ h

theorem rmdir_inside {n : Str} (hℓ : n :: T <:+ ℓ) (h : fs.rmdir ℓ = .ok fs') : Inside T fs fs' := by
  unfold rmdir at h
  split at h
  · cases h
  · exact drop_inside hℓ h
  · cases h

theorem carry_inside {x : Bool} {n n' : Str} (hs : n :: T <:+ src) (hd : n' :: T <:+ dst) (h : fs.carry x src dst = .ok fs') :
    Inside T fs fs' := by
  unfold carry at h
  split at h
  · cases h
    refine ⟨agreeOutside_moved hs hd, fun ha k => ?_⟩
    show (origin x src dst k).bind fs.attr = none
    cases origin x src dst k with
    | none => rfl
    | some k' => exact ha k'
  · cases h

theorem rename_inside {flags : Word} {n n' : Str} (hs : n :: T <:+ src) (hd : n' :: T <:+ dst)
    (h : fs.rename flags src dst = .ok fs') : Inside T fs fs' := by
  have hcarry : ∀ {x : Bool}, fs.carry x src dst = .ok fs' → Inside T fs fs' := fun hc => carry_inside hs hd hc
  unfold rename at h
  replace h := passed (passed (passed (passed h)))
  by_cases he : src = dst
  · rw [if_pos he] at h
    cases h
    exact .refl T fs
  rw [if_neg he] at h
  replace h := passed (passed h)
  by_cases hx : flags = renameExchange
  · rw [if_pos hx] at h
    exact hcarry h
  rw [if_neg hx] at h
  cases hdst : fs.entry dst with
  | none =>
    rw [hdst] at h
    exact hcarry h
  | some e =>
    rw [hdst] at h
    cases e with
    | dir =>
      replace h := passed h
      by_cases hc : Childless fs.entry dst
      · rw [if_pos hc] at h
        exact hcarry h
      · rw [if_neg hc] at h
        cases h
    | file | link t => exact hcarry (passed h)

end FileSystem

/-! ## The wrappers -/

/-- The call that the library makes of the host, where `resolve` is `path_resolution2` of the flags. -/
def DirCall.next (resolve : Word → Word → Int → Str → Ret Str) : DirCall → Ret DirCall
  | .mkdirat dfd path => (resolve 0 0 dfd path).bind fun buf => .done (.mkdirat dfd buf)
  | .openat dfd path => (resolve 0 0 dfd path).bind fun buf => .done (.openat dfd buf)
  | .symlinkat string dfd path =>
    (resolve atSymlinkNofollow 0 dfd path).bind fun buf => .done (.symlinkat string dfd buf)
  | .unlinkat dfd path atflags =>
    (resolve (atflags ||| atSymlinkNofollow) prNowalkalong dfd path).bind fun buf => .done (.unlinkat dfd buf atflags)
  | .rmdir path => (resolve atSymlinkNofollow prNowalkalong atFdcwd path).bind fun buf => .done (.rmdir buf)
  | .remove path => (resolve atSymlinkNofollow 0 atFdcwd path).bind fun buf => .done (.remove buf)
  | .renameat olddfd oldpath newdfd newpath =>
    (resolve atSymlinkNofollow prNowalkalong olddfd oldpath).bind fun oldbuf =>
      (resolve atSymlinkNofollow prNowalkalong newdfd newpath).bind fun newbuf =>
        .done (.renameat olddfd oldbuf newdfd newbuf)
  | .renameat2 olddfd oldpath newdfd newpath flags =>
    (resolve atSymlinkNofollow 0 olddfd oldpath).bind fun oldbuf =>
      (resolve atSymlinkNofollow 0 newdfd newpath).bind fun newbuf =>
        .done (.renameat2 olddfd oldbuf newdfd newbuf flags)

/-- The call `symlinkat` of the host is the one that makes the link that is read back. -/
theorem run_symlinkat (fs : FileSystem) (cwd : Loc) (fds : Int → Option Loc) (string : Str) (dfd : Int) (path : Str) :
    (DirCall.symlinkat string dfd path).run fs [] cwd fds = (fs.symlinkat (dirOf cwd fds dfd) string path).mapError .of := by
  rw [DirCall.run, FileSystem.symlinkat]
  by_cases hs : string = []
  · rw [if_pos hs, if_pos hs]
    rfl
  rw [if_neg hs, if_neg hs]
  by_cases hlen : pathMax ≤ string.length
  · rw [if_pos hlen, if_pos hlen]
    rfl
  rw [if_neg hlen, if_neg hlen]
  have hname : fs.nameIn [] (dirOf cwd fds dfd) path = fs.nameOf (dirOf cwd fds dfd) path := rfl
  rw [hname]
  cases fs.nameOf (dirOf cwd fds dfd) path with
  | error e => rfl
  | ok ℓ =>
    show fs.make ℓ (.link string) = _
    unfold FileSystem.make
    dsimp only
    have hiff : fs.Room ℓ (.link string) ↔ fs.Free ℓ string :=
      and_congr_right fun _ => and_congr_right fun _ => and_congr_right fun _ => Entry.sound_link
    by_cases hf : fs.Free ℓ string
    · have hroom := hiff.mpr hf
      rw [dif_pos hroom, dif_pos hf]
      rfl
    · have hroom := mt hiff.mp hf
      rw [dif_neg hroom, dif_neg hf]
      by_cases hn : fs.entry ℓ = none
      · rw [if_pos hn, if_pos hn]
        rfl
      · rw [if_neg hn, if_neg hn]
        rfl

end Iamroot
