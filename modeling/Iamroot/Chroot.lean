import Iamroot.Lib.Run
import Iamroot.ResolutionSpec

/-!
# chroot, chdir and fchdir

The three calls share the variable `IAMROOT_ROOT`. `chroot` stores what path
resolution returns; `chdir` and `fchdir` let the host change the working
directory and then drop the variable when the new working directory does not
begin with the characters of the root directory.
-/

namespace Iamroot

open FileTree

/-- What the calls read and write: `IAMROOT_ROOT`, and the working directory of the host. -/
structure Process where
  root : Option Str
  cwd : Loc

inductive Call where
  | chroot (path : Str)
  | chdir (path : Str)
  | fchdir (fd : Int)

section
variable (fs : FileSystem) (fds : Int → Option Loc) (re : Option (Str → Bool)) (errno : Option Errno) (fuel : Nat)

def setrootdir (s : Process) (path : Option Str) : Process := { s with root := path }

/-- `__chrootdir`, of the working directory that the host reports. -/
def chrootdir (s : Process) : Ret Unit × Process :=
  match (fs.host s.cwd fds).getcwd with
  | .error e => (.fail e, s)
  | .ok cwd => if strleq cwd (getrootdir s.root) then (.done (), s) else (.done (), setrootdir s none)

def nextChdir (s : Process) (path : Str) : Except Errno Process := do
  let ℓ ← fs.lookup s.cwd true path
  match fs.entry ℓ with
  | some .dir => .ok { s with cwd := ℓ }
  | some _ => .error .ENOTDIR
  | none => .error .ENOENT

def nextFchdir (s : Process) (fd : Int) : Except Errno Process :=
  match fds fd with
  | none => .error .EBADF
  | some ℓ => if fs.entry ℓ = some .dir then .ok { s with cwd := ℓ } else .error .ENOTDIR

def resolve (s : Process) (path : Str) : Ret Str :=
  pathResolution (fs.host s.cwd fds) s.root re fuel pathMax 0 errno atFdcwd path

def Call.run (s : Process) : Call → Ret Unit × Process
  | .chroot path =>
    match resolve fs fds re errno fuel s path with
    | .done buf => (.done (), setrootdir s (some buf))
    | .fail e => (.fail e, s)
    | .fault => (.fault, s)
    | .unfinished => (.unfinished, s)
  | .chdir path =>
    match resolve fs fds re errno fuel s path with
    | .done buf =>
      match nextChdir fs s buf with
      | .error e => (.fail e, s)
      | .ok s => chrootdir fs fds s
    | .fail e => (.fail e, s)
    | .fault => (.fault, s)
    | .unfinished => (.unfinished, s)
  | .fchdir fd =>
    match (fs.host s.cwd fds).fpath fd with
    | .error e => (.fail e, s)
    | .ok _ =>
      match nextFchdir fs fds s fd with
      | .error e => (.fail e, s)
      | .ok s => chrootdir fs fds s

def step (s : Process) (c : Call) : Process := (c.run fs fds re errno fuel s).2

end

/-! ## What is asked of the variable -/

def RootOk (fs : FileSystem) (root : Option Str) : Prop :=
  ∀ r, root = some r → ∃ ℓ, r = pathOf ℓ ∧ ValidLoc ℓ ∧ fs.entry ℓ = some .dir

def CallOk (fs : FileSystem) (s s' : Process) : Call → Prop
  | .chroot _ => RootOk fs s'.root
  | .chdir _ | .fchdir _ => RootOk fs s'.root ∧ (s.root = none → s'.root = none) ∧
    ∀ ℓ, s.root = some (pathOf ℓ) → s'.root = if Beneath ℓ s'.cwd then s.root else none

end Iamroot
