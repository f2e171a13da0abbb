import Mathlib.Logic.Function.Basic
import Iamroot.Basic

/-!
# Files and the metadata attributes

The host's files as the metadata wrappers see them: inodes with the mode and
the owner the kernel keeps, the extended attributes `user.iamroot.mode`,
`.uid` and `.gid` that hold what the guest asked for, the names and the
descriptors that lead to them. The macros of `iamroot.h` read and write the
attributes; the host calls may fail for reasons of their own, which is the
verdict `v` of each call.
-/

namespace Iamroot

abbrev Ino := Nat

def sIfmt : Word := 0o170000

def sIfdir : Word := 0o040000

def sIfreg : Word := 0o100000

def sIsuid : Word := 0o4000

def sIsgid : Word := 0o2000

def perm (m : Word) : Word := m &&& 0o777

inductive Attr where
  | mode | uid | gid
  deriving DecidableEq

/-- What an attribute holds: the four bytes of a word, or bytes of another size. -/
inductive Value where
  | word (w : Word)
  | other (b : Str)
  deriving DecidableEq

structure Inode where
  mode : Word
  uid : Word
  gid : Word
  attr : Attr → Option Value

def Inode.isDir (n : Inode) : Bool := n.mode &&& sIfmt == sIfdir

/-- A descriptor of a file without a name has the empty path, which names nothing. -/
structure Files where
  inode : Ino → Inode
  names : Str → Option Ino
  fds : Nat → Option (Ino × Str)
  nextIno : Ino
  nextFd : Nat
  umask : Word

namespace Files

def modify (fs : Files) (i : Ino) (f : Inode → Inode) : Files :=
  { fs with inode := Function.update fs.inode i (f (fs.inode i)) }

def create (fs : Files) (path : Option Str) (mode : Word) : Files :=
  { fs with
    inode := Function.update fs.inode fs.nextIno { mode := mode, uid := 0, gid := 0, attr := fun _ => none }
    names := match path with
      | some p => Function.update fs.names p (some fs.nextIno)
      | none => fs.names
    nextIno := fs.nextIno + 1 }

def opened (fs : Files) (i : Ino) (path : Str) : Files :=
  { fs with fds := Function.update fs.fds fs.nextFd (some (i, path)), nextFd := fs.nextFd + 1 }

/-- What holds of the host whatever the calls: a name or a descriptor leads to a
file there is, a descriptor's path names its file or is empty, and the empty
path names nothing. -/
structure Ok (fs : Files) : Prop where
  names_lt : ∀ {p i}, fs.names p = some i → i < fs.nextIno
  fds_lt : ∀ {fd i p}, fs.fds fd = some (i, p) → i < fs.nextIno
  fds_name : ∀ {fd i p}, fs.fds fd = some (i, p) → fs.names p = some i ∨ p = []
  no_name : fs.names [] = none

end Files

/-! ## The attributes -/

def Inode.get (n : Inode) (a : Attr) : Word :=
  match n.attr a with
  | some (.word w) => w
  | _ => minusOne

def Inode.set (n : Inode) (a : Attr) (old new : Word) : Inode :=
  { n with attr := Function.update n.attr a (if old = new then none else some (.word old)) }

/-- The path getters: `lgetxattr`, then the size of what it read. -/
def getAttr (a : Attr) (fs : Files) (path : Str) : Word :=
  match fs.names path with
  | some i => (fs.inode i).get a
  | none => minusOne

/-- The path setters: the attribute goes when the host got what was asked. -/
def setAttr (a : Attr) (fs : Files) (path : Str) (old new : Word) : Files :=
  match fs.names path with
  | some i => fs.modify i fun n => n.set a old new
  | none => fs

def fgetAttr (a : Attr) (fs : Files) (fd : Nat) : Word :=
  match fs.fds fd with
  | some (i, _) => (fs.inode i).get a
  | none => minusOne

def getMode := getAttr .mode
def setMode := setAttr .mode
def fgetMode := fgetAttr .mode
def getUid := getAttr .uid
def setUid := setAttr .uid
def fgetUid := fgetAttr .uid
def getGid := getAttr .gid
def setGid := setAttr .gid
def fgetGid := fgetAttr .gid

def forgiven : Option Errno → Int
  | none => 0
  | some e => if e = .EPERM then 0 else -1

/-! ## The stat family -/

structure Stat where
  mode : Word
  uid : Word
  gid : Word

def Inode.stat (n : Inode) : Stat := { mode := n.mode, uid := n.uid, gid := n.gid }

def Stat.withMode (s : Stat) (m : Word) : Stat :=
  if m ≠ minusOne then { s with mode := (s.mode &&& sIfmt) ||| m } else s

def Stat.withUid (s : Stat) (u : Word) : Stat := if u ≠ minusOne then { s with uid := u } else { s with uid := 0 }

def Stat.withGid (s : Stat) (g : Word) : Stat := if g ≠ minusOne then { s with gid := g } else { s with gid := 0 }

/-- How the wrappers turn a descriptor, a path, at-flags and the flags of
`path_resolution2` into the path they hand to the host. -/
abbrev Resolve := Files → Int → Str → Word → Word → Option Str

section
variable (resolve : Resolve) (fs : Files)

/-- The host's call on the resolved path, then the attributes over it. -/
def statBuf (buf : Str) (v : Option Errno) : Option Stat := do
  let i ← fs.names buf
  if v.isSome then none
  else (((fs.inode i).stat.withMode (getMode fs buf)).withUid (getUid fs buf)).withGid (getGid fs buf)

def fstatat (dfd : Int) (path : Str) (atflags : Word) (v : Option Errno) : Option Stat :=
  (resolve fs dfd path atflags 0).bind fun buf => statBuf fs buf v

def stat (path : Str) (v : Option Errno) : Option Stat := fstatat resolve fs atFdcwd path 0 v

def statx (dfd : Int) (path : Str) (atflags : Word) (v : Option Errno) : Option Stat :=
  (resolve fs dfd path atflags 0).bind fun buf => statBuf fs buf v

def lstat (path : Str) (v : Option Errno) : Option Stat := do
  let buf ← resolve fs atFdcwd path atSymlinkNofollow prNowalkalong
  let i ← fs.names buf
  if v.isSome then none
  else
    let statbuf := (fs.inode i).stat
    let statbuf := if getUid fs buf = minusOne then { statbuf with uid := 0 } else statbuf
    let statbuf := if getGid fs buf = minusOne then { statbuf with gid := 0 } else statbuf
    ((statbuf.withMode (getMode fs buf)).withUid (getUid fs buf)).withGid (getGid fs buf)

def fstat (fd : Nat) (v : Option Errno) : Option Stat := do
  let f ← fs.fds fd
  if v.isSome then none
  else (((fs.inode f.1).stat.withMode (fgetMode fs fd)).withUid (fgetUid fs fd)).withGid (fgetGid fs fd)

end

inductive StatCall where
  | fstatat (dfd : Int) (path : Str) (atflags : Word)
  | stat (path : Str)
  | statx (dfd : Int) (path : Str) (atflags : Word)
  | lstat (path : Str)
  | fstat (fd : Nat)

namespace StatCall

variable (resolve : Resolve) (fs : Files)

def run (v : Option Errno) : StatCall → Option Stat
  | fstatat dfd path atflags => Iamroot.fstatat resolve fs dfd path atflags v
  | stat path => Iamroot.stat resolve fs path v
  | statx dfd path atflags => Iamroot.statx resolve fs dfd path atflags v
  | lstat path => Iamroot.lstat resolve fs path v
  | fstat fd => Iamroot.fstat fs fd v

def file : StatCall → Option Ino
  | fstatat dfd path atflags => (resolve fs dfd path atflags 0).bind fs.names
  | stat path => (resolve fs atFdcwd path 0 0).bind fs.names
  | statx dfd path atflags => (resolve fs dfd path atflags 0).bind fs.names
  | lstat path => (resolve fs atFdcwd path atSymlinkNofollow prNowalkalong).bind fs.names
  | fstat fd => (fs.fds fd).map Prod.fst

end StatCall

def Inode.seen (n : Inode) : Stat := ((n.stat.withMode (n.get .mode)).withUid (n.get .uid)).withGid (n.get .gid)

/-! ## The attributes, read and written -/

theorem getAttr_eq {fs : Files} {path : Str} {i : Ino} (h : fs.names path = some i) (a : Attr) :
    getAttr a fs path = (fs.inode i).get a := by
  simp [getAttr, h]

theorem Inode.get_set (n : Inode) (a : Attr) (old new : Word) :
    (n.set a old new).get a = if old = new then minusOne else old := by
  by_cases h : old = new <;> simp [Inode.get, Inode.set, h]

theorem Inode.get_set_ne (n : Inode) {a b : Attr} (hab : a ≠ b) (old new : Word) :
    (n.set b old new).get a = n.get a := by
  simp [Inode.get, Inode.set, Function.update_of_ne hab]

@[simp] theorem Files.modify_names (fs : Files) (i : Ino) (f : Inode → Inode) : (fs.modify i f).names = fs.names := rfl

theorem Files.modify_self (fs : Files) (i : Ino) (f : Inode → Inode) : (fs.modify i f).inode i = f (fs.inode i) := by
  simp [Files.modify]

theorem Files.modify_ne (fs : Files) {i j : Ino} (h : j ≠ i) (f : Inode → Inode) :
    (fs.modify i f).inode j = fs.inode j := by
  simp [Files.modify, h]

theorem setAttr_names (a : Attr) (fs : Files) (path : Str) (old new : Word) :
    (setAttr a fs path old new).names = fs.names := by
  unfold setAttr; split <;> rfl

theorem setAttr_fds (a : Attr) (fs : Files) (path : Str) (old new : Word) :
    (setAttr a fs path old new).fds = fs.fds := by
  unfold setAttr; split <;> rfl

theorem setAttr_nextIno (a : Attr) (fs : Files) (path : Str) (old new : Word) :
    (setAttr a fs path old new).nextIno = fs.nextIno := by
  unfold setAttr; split <;> rfl

/-- A setter touches the file its path names and no other. -/
theorem setAttr_inode (a : Attr) (fs : Files) (path : Str) (old new : Word) (j : Ino) :
    (setAttr a fs path old new).inode j =
      if fs.names path = some j then (fs.inode j).set a old new else fs.inode j := by
  unfold setAttr
  split
  · rename_i i h
    by_cases hj : j = i
    · subst hj; simp [Files.modify_self, h]
    · have : ¬ fs.names path = some j := fun e => hj (Option.some.inj (e.symm.trans h))
      rw [Files.modify_ne fs hj, if_neg this]
  · rename_i h; simp [h]

/-! ## What the stat family reports -/

theorem Stat.withUid_mode (s : Stat) (u : Word) : (s.withUid u).mode = s.mode := by
  unfold Stat.withUid; split <;> rfl

theorem Stat.withUid_uid (s : Stat) (u : Word) : (s.withUid u).uid = if u ≠ minusOne then u else 0 := by
  unfold Stat.withUid; split <;> rfl

theorem Stat.withGid_mode (s : Stat) (g : Word) : (s.withGid g).mode = s.mode := by
  unfold Stat.withGid; split <;> rfl

theorem Stat.withGid_uid (s : Stat) (g : Word) : (s.withGid g).uid = s.uid := by
  unfold Stat.withGid; split <;> rfl

theorem Stat.withGid_gid (s : Stat) (g : Word) : (s.withGid g).gid = if g ≠ minusOne then g else 0 := by
  unfold Stat.withGid; split <;> rfl

theorem Inode.seen_uid (n : Inode) : n.seen.uid = if n.get .uid ≠ minusOne then n.get .uid else 0 := by
  rw [Inode.seen, Stat.withGid_uid, Stat.withUid_uid]

theorem Inode.seen_gid (n : Inode) : n.seen.gid = if n.get .gid ≠ minusOne then n.get .gid else 0 := by
  rw [Inode.seen, Stat.withGid_gid]

theorem statBuf_eq {fs : Files} {buf : Str} {v : Option Errno} {s : Stat} {i : Ino}
    (hs : statBuf fs buf v = some s) (hi : fs.names buf = some i) : s = (fs.inode i).seen := by
  simp only [statBuf, hi, Option.bind_eq_bind, Option.bind_some] at hs
  split at hs
  · cases hs
  · simpa [getMode, getUid, getGid, getAttr_eq hi, Inode.seen] using hs.symm

/-- Every call of the stat family that succeeds reports `seen` of the file it looks at. -/
theorem StatCall.run_eq (resolve : Resolve) (fs : Files) (c : StatCall) {v : Option Errno} {s : Stat} {i : Ino}
    (hs : c.run resolve fs v = some s) (hi : c.file resolve fs = some i) : s = (fs.inode i).seen := by
  cases c with
  | fstatat dfd path atflags | stat path | statx dfd path atflags =>
    obtain ⟨buf, hb, hn⟩ := Option.bind_eq_some_iff.mp hi
    simp only [StatCall.run, Iamroot.stat, Iamroot.statx, Iamroot.fstatat, hb, Option.bind_some] at hs
    exact statBuf_eq hs hn
  | lstat path =>
    obtain ⟨buf, hb, hn⟩ := Option.bind_eq_some_iff.mp hi
    simp only [StatCall.run, Iamroot.lstat, hb, hn, Option.bind_eq_bind, Option.bind_some] at hs
    split at hs
    · cases hs
    · simp only [Option.some.injEq] at hs
      rw [← hs]
      simp only [getMode, getUid, getGid, getAttr_eq hn, Inode.seen, Stat.withGid, Stat.withUid, Stat.withMode]
      split <;> split <;> split <;> simp_all
  | fstat fd =>
    obtain ⟨f, hf, rfl⟩ := Option.map_eq_some_iff.mp hi
    simp only [StatCall.run, Iamroot.fstat, hf, Option.bind_eq_bind, Option.bind_some] at hs
    split at hs
    · cases hs
    · simpa [fgetMode, fgetUid, fgetGid, fgetAttr, hf, Inode.seen] using hs.symm

theorem StatCall.file_lt (resolve : Resolve) {fs : Files} (h : fs.Ok) {c : StatCall} {i : Ino}
    (hi : c.file resolve fs = some i) : i < fs.nextIno := by
  cases c with
  | fstatat dfd path atflags | stat path | statx dfd path atflags | lstat path =>
    obtain ⟨_, -, hn⟩ := Option.bind_eq_some_iff.mp hi
    exact h.names_lt hn
  | fstat fd =>
    obtain ⟨f, hf, rfl⟩ := Option.map_eq_some_iff.mp hi
    exact h.fds_lt hf

def oneFile : Files where
  inode _ := { mode := sIfreg ||| 0o644, uid := 1000, gid := 1000, attr := fun _ => none }
  names p := if p = ['/', 'f'] then some 0 else none
  fds _ := none
  nextIno := 1
  nextFd := 3
  umask := 0o022

def asIs : Resolve := fun _ _ path _ _ => some path

theorem oneFile_ok : oneFile.Ok where
  names_lt {p i} := by
    simp only [oneFile]
    split
    · intro h; cases h; exact Nat.zero_lt_one
    · nofun
  fds_lt := nofun
  fds_name := nofun
  no_name := rfl

end Iamroot
