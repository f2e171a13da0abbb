import Iamroot.Elf
import Iamroot.Env
import Iamroot.Files
import Iamroot.Resolution

/-!
# Running a program

`execve`, `execveat` and `posix_spawn` are one text with three underlying calls:
they bring the environment in place, resolve the program, and hand it over as it
is outside of a chroot, to the script `exec.sh` when it cannot be run in one, and
to its dynamic loader otherwise. The arguments that come first are built in
`interparg`, and the strings in one buffer, from `off` on.

The environment is that of the library, with its memory: a step that reads a
released string has no defined behaviour. What the code asks of files, and the
two lists that it computes for a loader, are parameters: `ExecWorld`.
-/

namespace Iamroot

structure ExecState where
  env : Env
  errno : Option Errno

/-- How a function ends: with a value, with -1 and an errno, with `_exit`, without a defined behaviour,
or not in time. -/
inductive Ran (α : Type) where
  | ok (a : α) (s : ExecState)
  | err (e : Option Errno) (s : ExecState)
  | exit (status : Nat)
  | fault
  | unfinished

def Exec (α : Type) : Type := ExecState → Ran α

namespace Exec

def bind {α β : Type} (x : Exec α) (f : α → Exec β) : Exec β := fun s =>
  match x s with
  | .ok a s => f a s
  | .err e s => .err e s
  | .exit n => .exit n
  | .fault => .fault
  | .unfinished => .unfinished

instance : Monad Exec where
  pure a s := .ok a s
  bind := bind

variable {α : Type}

def fail (e : Errno) : Exec α := fun s => .err (some e) { s with errno := some e }

def failAsIs : Exec α := fun s => .err s.errno s

def fault : Exec α := fun _ => .fault

def exit (status : Nat) : Exec α := fun _ => .exit status

def environ : Exec Env := fun s => .ok s.env s

def ofExcept : Except Errno α → Exec α
  | .ok a => pure a
  | .error e => fail e

/-- `none` for a -1 with the errno `e`. -/
def orNone (e : Errno) (x : Exec α) : Exec (Option α) := fun s =>
  match x s with
  | .ok a s => .ok (some a) s
  | .err e' s => if e' = some e then .ok none s else .err e' s
  | .exit n => .exit n
  | .fault => .fault
  | .unfinished => .unfinished

def orElse (x : Exec α) (f : Option Errno → Exec α) : Exec α := fun s =>
  match x s with
  | .err e s => f e s
  | r => r

/-! ## The environment -/

def getenv (name : Str) : Exec (Option Str) := fun s =>
  match Iamroot.getenv s.env name with
  | some v => .ok v s
  | none => .fault

def update (f : Env → Option (Env × Int)) : Exec Unit := fun s =>
  match f s.env with
  | none => .fault
  | some (env, r) => if r = -1 then fail .EINVAL { s with env := env } else .ok () { s with env := env }

def setenv (name value : Str) : Exec Unit := update fun e => Iamroot.setenv e name value true

def unsetenv (name : Str) : Exec Unit := update fun e => Iamroot.unsetenv e name

end Exec

/-- The last argument of an exec: a null pointer, the environment itself, or an array of its own. -/
inductive Envp where
  | null
  | environ
  | list (envp : List Ptr)

/-- The strings that an array holds when it is handed over; the outer `none` when one was released. -/
def Env.handed (e : Env) : Envp → Option (Option (List Str))
  | .null => some none
  | .list l => (l.mapM e.read).map some
  | .environ =>
    match e.environ with
    | none => some none
    | some l => (l.mapM e.read).map some

/-! ## Files and loaders -/

structure ExecFile where
  mode : Word
  size : Nat
  content : Except Errno Str

/-- What `__elf_interp_ldso_abi` finds: two fields of the header, the interpreter, and its name and version. -/
structure Loader where
  ident : Bytes
  machine : BitVec 16
  ptInterp : Str
  ldso : Str
  abi : Int

namespace Loader

variable (l : Loader)

def isLinuxLdso : Bool := strneq l.ldso "linux".toList 5

def isMuslLdso : Bool := strneq l.ldso "musl".toList 4

def isElfLdso : Bool := streq l.ldso "elf".toList

def is32Bits : Bool := l.ident[4]? == some 1

def is64Bits : Bool := l.ident[4]? == some 2

def isMipsle : Bool := l.machine == 8 && l.ident[5]? == some 1

def isPowerpc : Bool := l.machine == 20 && l.ident[5]? == some 2

def isPowerpc64 : Bool := l.machine == 21 && l.ident[5]? == some 2

def isPowerpc64le : Bool := l.machine == 21 && l.ident[5]? == some 1

def isS390 : Bool := l.machine == 22

def isLinux : Bool := l.ident[7]? == some 3

def isGnuLinux : Bool := l.isLinuxLdso || l.isLinux

def isGnuLinuxExt : Bool :=
  l.isGnuLinux || (l.isMipsle && (l.ldso = [] ∧ l.abi = 1) && l.is32Bits) ||
    (l.isMipsle && (l.ldso = [] ∧ l.abi = 1) && l.is64Bits) || (l.isPowerpc && (l.ldso = [] ∧ l.abi = 1)) ||
    (l.isPowerpc64 && (l.ldso = [] ∧ l.abi = 2)) || (l.isPowerpc64le && (l.ldso = [] ∧ l.abi = 2)) ||
    (l.isS390 && (l.ldso = [] ∧ l.abi = 1))

def isMusl : Bool := l.isMuslLdso

def isFreebsd : Bool := l.ident[7]? == some 9 || (l.isElfLdso && l.abi == 1)

def isNetbsd : Bool := l.ident[7]? == some 2 || (l.isElfLdso && l.abi == -1)

def isOpenbsd : Bool := l.ident[7]? == some 12

end Loader

structure ExecWorld where
  host : Host
  re : Option (Str → Bool)
  execRe : Option (Str → Bool)
  ldsoRe : Option (Str → Bool)
  fuel : Nat
  /-- The errno after a `path_resolution` that succeeded. -/
  resolvedErrno : Option Str → Option Errno → Str → Option Errno
  /-- `st_mode` of `next_fstatat`. -/
  mode : Str → Except Errno Word
  file : Str → Except Errno ExecFile
  hasInterp : Str → Except Errno Bool
  interp : Str → Except Errno Str
  interpLdsoAbi : Str → Except Errno Loader
  ldLinuxVersion : Env → Str → Except Errno (Int × Int)
  ldPreload : Env → Loader → Str → Nat → Except Errno Str
  ldLibraryPath : Env → Str → Nat → Except Errno Str
  preloadLibiamroot : Env → Option Env
  /-- `exec.sh` below a path list of the host. -/
  hostPathAccess : Str → Option Str
  faccess : Str → Except Errno Unit
  ldTraceLoaderObjects : Env → Str → Except Errno Unit
  execSh : Str
  version : Str

def argMax : Nat := 4096

def sIxusr : Word := 0o100

def elfMagic : Str := [Char.ofNat 0x7f, 'E', 'L', 'F']

def scriptMag : Str := ['#', '!']

def pathBshell : Str := "/bin/sh".toList

def execBufsiz : Nat := 2 * pathMax

/-! ## `interparg` -/

abbrev Slots := List (Option Str)

def Slots.empty : Slots := List.replicate 15 none

def Slots.strings (I : Slots) : List Str := (I.takeWhile Option.isSome).reduceOption

def Slots.count (I : Slots) : Nat := (I.takeWhile Option.isSome).length

/-- `for (j = i+shift; j > shift; j--) interparg[j] = interparg[j-shift];` -/
def shiftUp (shift : Nat) : Nat → Slots → Slots
  | 0, I => I
  | i + 1, I => shiftUp shift i (I.set (shift + (i + 1)) (I[i + 1]?.join))

def pushArg (s : Str) (p : Slots × Nat) : Slots × Nat := (p.1.set p.2 (some s), p.2 + 1)

/-! ## `__ldso` -/

structure LdsoOptions where
  shift : Nat
  argv0 : Bool
  preload : Bool
  libraryPath : Bool
  inhibitRpath : Bool
  inhibitCache : Bool

/-- `__ld_linux_has_argv0_option` and its two siblings: a version that cannot be told has every option. -/
def ldLinuxHas (minor : Int) : Except Errno (Int × Int) → Except Errno Bool
  | .error e => if e = .ENOTSUP then .ok true else .error e
  | .ok (maj, min) => .ok (maj > 2 ∨ maj = 2 ∧ min ≥ minor)

/-- The options of the loader, as `__ldso` finds them out one system after the other. -/
def ldsoOptions (l : Loader) (version : Except Errno (Int × Int)) : Except Errno LdsoOptions := do
  let o : LdsoOptions ←
    if l.isGnuLinuxExt then do
      let inhibitCache ← ldLinuxHas 16 version
      let argv0 ← ldLinuxHas 33 version
      let preload ← ldLinuxHas 30 version
      pure ⟨1, argv0, preload, true, true, inhibitCache⟩
    else pure ⟨0, false, false, false, false, false⟩
  let o := if l.isMusl then { o with shift := 1, argv0 := true, preload := true, libraryPath := true } else o
  let o := if l.isFreebsd then { o with shift := 1 } else o
  let o := if l.isNetbsd || l.isOpenbsd then { o with shift := 0 } else o
  pure o

/-- The strings that `__ldso` has in the buffer; `none` is an empty list, which leaves a null pointer. -/
structure LdsoStrings where
  interp : Str
  preload : Option Str
  libraryPath : Option Str
  inhibitRpath : Option Str
  argv0 : Str
  program : Str

def ldsoShift (o : LdsoOptions) (t : LdsoStrings) : Nat :=
  o.shift + (if o.argv0 then 2 else 0) + (if o.preload && t.preload.isSome then 2 else 0) +
    (if o.libraryPath && t.libraryPath.isSome then 2 else 0) +
    (if o.inhibitRpath && t.inhibitRpath.isSome then 2 else 0) + (if o.inhibitCache then 1 else 0)

def pushOption (c : Bool) (name : Str) (arg : Option Str) (p : Slots × Nat) : Slots × Nat :=
  match arg with
  | some x => if c then pushArg x (pushArg name p) else p
  | none => p

/-- `interparg` after it was shifted and filled, and the value that `__ldso` returns. -/
def ldsoFill (o : LdsoOptions) (t : LdsoStrings) (I : Slots) : Slots × Nat :=
  let shift := ldsoShift o t
  let j := I.count
  let p := (shiftUp shift j I, 0)
  let p := if shift ≠ 0 then pushArg t.interp p else p
  let p := pushOption (shift ≠ 0 && o.preload) "--preload".toList t.preload p
  let p := pushOption (shift ≠ 0 && o.libraryPath) "--library-path".toList t.libraryPath p
  let p := pushOption (shift ≠ 0 && o.inhibitRpath) "--inhibit-rpath".toList t.inhibitRpath p
  let p := if shift ≠ 0 && o.inhibitCache then pushArg "--inhibit-cache".toList p else p
  let p := pushOption (shift ≠ 0 && o.argv0) "--argv0".toList (some t.argv0) p
  let i := p.2 + j
  ((p.1.set p.2 (some t.program)).set i none, i)

def setUnless (c : Bool) (name : Str) (value : Option Str) : Exec Unit :=
  match value with
  | some x => if c then pure () else Exec.setenv name x
  | none => pure ()

/-- The variables in the place of the options that the loader does not have. -/
def ldsoSetenv (o : LdsoOptions) (t : LdsoStrings) : Exec Unit := do
  let shift := ldsoShift o t
  setUnless (shift ≠ 0 && o.preload) "LD_PRELOAD".toList t.preload
  setUnless (shift ≠ 0 && o.libraryPath) "LD_LIBRARY_PATH".toList t.libraryPath
  setUnless (shift ≠ 0 && o.argv0) "argv0".toList (some t.argv0)

def nonempty (s : Str) : Option Str := if s = [] then none else some s

def extent (s : Str) : Nat := if s = [] then 0 else s.length + 1

section
variable (w : ExecWorld)

def resolveAt (dfd : Int) (path : Str) (bufsiz : Nat) (atflags : Word) : Exec Str := do
  let root ← Exec.getenv "IAMROOT_ROOT".toList
  fun s =>
    match pathResolution w.host root w.re w.fuel bufsiz atflags s.errno dfd path with
    | .done buf => .ok buf { s with errno := w.resolvedErrno root s.errno path }
    | .fail e => Exec.fail e s
    | .fault => .fault
    | .unfinished => .unfinished

/-- The part of `__ldso` that comes before the array is touched: the options, and the strings. -/
def ldsoFind (path : Str) (I : Slots) (off : Nat) : Exec (LdsoOptions × LdsoStrings) := do
  let l ← Exec.ofExcept (w.interpLdsoAbi path)
  let o ← Exec.ofExcept (ldsoOptions l (w.ldLinuxVersion (← Exec.environ) l.ptInterp))
  let preload ← Exec.ofExcept (w.ldPreload (← Exec.environ) l path (execBufsiz - off))
  let off := off + extent preload
  let libraryPath ← Exec.ofExcept (w.ldLibraryPath (← Exec.environ) path (execBufsiz - off))
  let off := off + extent libraryPath
  let inhibit ← Exec.getenv "IAMROOT_INHIBIT_RPATH".toList
  let inhibitRpath := if o.inhibitRpath then strncpy (inhibit.getD []) (execBufsiz - off) else []
  let off := off + extent inhibitRpath
  Exec.unsetenv "LD_PRELOAD".toList
  Exec.unsetenv "LD_LIBRARY_PATH".toList
  let interp ← resolveAt w atFdcwd l.ptInterp (execBufsiz - off) 0
  match I[0]?.join with
  | none => Exec.fault
  | some argv0 =>
    pure (o, ⟨interp, nonempty preload, nonempty libraryPath, nonempty inhibitRpath, argv0, path⟩)

def ldso (path : Str) (I : Slots) (off : Nat) : Exec (Slots × Nat) := do
  let (o, t) ← ldsoFind w path I off
  ldsoSetenv o t
  pure (ldsoFill o t I)

/-! ## Scripts -/

def isBlank (c : Char) : Bool := c = ' ' || c = '\t'

def inWord (c : Char) : Bool := c ≠ nul && c ≠ '\n' && !isBlank c

/-- The text after `#!`: the interpreter, and the argument when a blank follows it. -/
def hashbangWords (s : Str) : Str × Option Str :=
  let s := s.dropWhile isBlank
  let rest := s.dropWhile inWord
  (s.takeWhile inWord, if rest.head?.any isBlank then some ((rest.dropWhile isBlank).takeWhile inWord) else none)

def hashbangSize (r : Str × Option Str) : Nat := r.1.length + (r.2.elim 0 fun a => a.length + 1)

def interpreterScriptHashbang (path : Str) (room : Nat) : Exec (Str × Option Str) := do
  let f ← Exec.ofExcept (w.file path)
  if f.size = 0 then pure (pathBshell, none)
  else do
    let text := (← Exec.ofExcept f.content).take (room - 1)
    if text.length < 2 ∨ text.take 2 ≠ scriptMag then Exec.fail .ENOEXEC
    else pure (hashbangWords (text.drop 2))

def interpreterScript (path : Str) (room : Nat) (I : Slots) : Exec (Slots × Nat × Str × Option Str) := do
  let r ← interpreterScriptHashbang w path room
  if hashbangSize r < 1 then Exec.failAsIs
  else do
    let p := pushArg r.1 (I, 0)
    let arg := r.2.filter (· ≠ [])
    let p := arg.elim p (pushArg · p)
    let p := pushArg path p
    pure (p.1.set p.2 none, p.2, r.1, arg)

/-! ## From the path to the program -/

def execIgnored (path : Str) : Bool := w.execRe.any (· path)

def isLdso (path : Str) : Bool := w.ldsoRe.any (· path)

def isSuid (path : Str) : Exec Bool := do
  let mode ← Exec.ofExcept (w.mode path)
  pure (mode &&& sIsuid != 0)

def fcanExec (path : Str) (f : ExecFile) : Exec Bool :=
  if f.mode &&& sIxusr = 0 then Exec.fail .ENOEXEC
  else do
    let magic := (← Exec.ofExcept f.content).take 4
    if magic ≠ [] ∧ magic.length < 4 then Exec.fail Errno.EIO
    else if magic = [] then pure true
    else if magic.take 2 = scriptMag then pure true
    else if magic = elfMagic then Exec.ofExcept (w.hasInterp path)
    else Exec.fail .ENOTSUP

def canExec (path : Str) : Exec Bool := do
  if ← isSuid w path then pure false
  else do
    let f ← Exec.ofExcept (w.file path)
    fcanExec w path f

/-- Where the text of the three functions goes on. -/
inductive Stage where
  | execSh
  /-- not in a chroot -/
  | asIs
  /-- the label `loader`: the start of the buffer, the program, the first arguments and the offset -/
  | loader (buf program : Str) (interparg : Slots) (off : Nat)

def execStage (dfd : Int) (path : Str) (atflags : Word) (argv : List Str) : Exec Stage :=
  if execIgnored w path then pure .execSh
  else do
    let buf ← resolveAt w dfd path execBufsiz atflags
    let off := buf.length + 1
    match argv with
    | [] => Exec.fault
    | argv0 :: _ =>
      let I := Slots.empty.set 0 (some argv0)
      if !(← canExec w buf) then pure .execSh
      else if !inchroot (← Exec.getenv "IAMROOT_ROOT".toList) then pure .asIs
      else
        match ← Exec.orNone .ENOEXEC (interpreterScript w buf (execBufsiz - off) I) with
        | none => pure (.loader buf buf I off)
        | some (I, ret, hashbang, arg) =>
          let off := off + (hashbang.length + 1) + (arg.elim 0 fun a => a.length + 1)
          let I := I.set (ret - 1) (some path)
          let program ← resolveAt w atFdcwd hashbang (execBufsiz - off) 0
          pure (.loader buf program I (off + (program.length + 1)))

/-! ## `exec.sh` -/

def getexec : Exec Str := do
  let exec ← Exec.getenv "IAMROOT_EXEC".toList
  pure (exec.getD w.execSh)

def execSh (path : Str) (argv : List Str) (I : Slots) : Exec Slots := do
  let origin ← Exec.getenv "IAMROOT_ORIGIN".toList
  let exec ←
    match origin.bind w.hostPathAccess with
    | some exec => pure exec
    | none => do
      let exec := strncpy (← getexec w) execBufsiz
      Exec.ofExcept (w.faccess exec)
      pure exec
  match argv with
  | [] => Exec.fault
  | argv0 :: _ => do
    Exec.setenv "IAMROOT_VERSION".toList w.version
    Exec.setenv "_argv0".toList argv0
    Exec.setenv "_preload".toList ((← Exec.getenv "LD_PRELOAD".toList).getD [])
    Exec.setenv "_library_path".toList ((← Exec.getenv "LD_LIBRARY_PATH".toList).getD [])
    Exec.unsetenv "LD_PRELOAD".toList
    Exec.unsetenv "LD_LIBRARY_PATH".toList
    let p := pushArg path (pushArg exec (I, 0))
    pure (p.1.set p.2 none)

/-! ## Running the loader itself -/

def strtol (s : Str) : Int × Bool :=
  let s := s.dropWhile fun c => c = ' ' || ('\t' ≤ c && c ≤ '\r')
  let neg := s.head? = some '-'
  let s := if s.head? = some '-' ∨ s.head? = some '+' then s.drop 1 else s
  let hex := fun c : Char => c.isDigit || ('a' ≤ c.toLower && c.toLower ≤ 'f')
  let (base, s) :=
    if s.head? = some '0' then
      if (s[1]?.any fun c => c.toLower = 'x') && s[2]?.any hex then (16, s.drop 2) else (8, s)
    else (10, s)
  let digit := fun c : Char =>
    if c.isDigit then c.toNat - '0'.toNat else if hex c then c.toLower.toNat - 'a'.toNat + 10 else 16
  let n := (s.takeWhile fun c => digit c < base).foldl (fun n c => n * base + digit c) 0
  if neg then (if n ≤ 2 ^ 63 then (-n, false) else (-2 ^ 63, true))
  else if n < 2 ^ 63 then (n, false) else (2 ^ 63 - 1, true)

def toInt (n : Int) : Int := (BitVec.ofInt 32 n).toInt

def getldTraceLoadedObjects : Exec Int := do
  let n := strtol ((← Exec.getenv "LD_TRACE_LOADED_OBJECTS".toList).getD ['0'])
  fun s => .ok (toInt n.1) (if n.2 then { s with errno := some .ERANGE } else s)

/-- `none` is a null pointer, which `path_resolution` refuses. -/
def ldsoVerify : Option Str → Exec Unit
  | none => Exec.fail .EINVAL
  | some path => do
    let buf ← resolveAt w atFdcwd path pathMax 0
    let _ ← Exec.ofExcept (w.interp buf)
    pure ()

def ldTraceLoaderObjectsExec (path : Str) : Exec Unit := do
  let buf ← resolveAt w atFdcwd path pathMax 0
  Exec.ofExcept (w.ldTraceLoaderObjects (← Exec.environ) buf)

/-- `__ldso_execve`; it exits or returns -1. -/
def ldsoExecve (argv : List Str) : Exec Unit :=
  match argv[1]? with
  | none => Exec.fail .EAGAIN
  | some arg =>
    if streq arg "--verify".toList then do
      Exec.orElse (ldsoVerify w argv[2]?) fun e => Exec.exit (if e = some .ENOEXEC then 2 else 1)
      Exec.exit 0
    else do
      let ret ← getldTraceLoadedObjects
      if ret = -1 then Exec.failAsIs
      else if ret = 0 then Exec.fail .EAGAIN
      else do
        ldTraceLoaderObjectsExec w arg
        Exec.exit 0

def ldsoExecveat (_argv : List Str) : Exec Unit := Exec.fail .ENOSYS

def ldsoPosixSpawn (_argv : List Str) : Exec Unit := Exec.fail .ENOSYS

/-! ## The three functions -/

structure Handed where
  path : Str
  argv : List Str
  envp : Option (List Str)

/-- What one of the three functions has of its own. `next` is the underlying call, with what that adds to
its arguments. -/
structure FrontEnd (κ : Type) where
  dfd : Int
  atflags : Word
  ldso : List Str → Exec Unit
  next : Handed → κ

/-- `_resetenv`, when it is called, and the pointer that the function goes on with. -/
def takeEnvp : Envp → Exec Envp
  | .list l => fun s =>
    match resetenv s.env l with
    | some env => .ok .environ { s with env := env }
    | none => .fault
  | envp => pure envp

section
variable {κ : Type} (F : FrontEnd κ)

def callNext (path : Str) (argv : List Str) (envp : Envp) : Exec κ := fun s =>
  match s.env.handed envp with
  | some l => .ok (F.next ⟨path, argv, l⟩) s
  | none => .fault

/-- The end of both ways: `nargv` out of `interparg` and of the arguments that were given. -/
def callNargv (I : Slots) (argv : List Str) : Exec κ :=
  let nargv := I.strings ++ argv.tail
  if 1 + nargv.length < argMax then
    match nargv with
    | [] => Exec.fault
    | path :: _ => callNext F path nargv .environ
  else Exec.fail .E2BIG

/-- The label `exec_sh`. -/
def callExecSh (path : Str) (argv : List Str) (I : Slots) : Exec κ := do
  callNargv F (← execSh w path argv I) argv

def execFrom (path : Str) (argv : List Str) (envp : Envp) : Exec κ := do
  let envp ← takeEnvp envp
  match ← execStage w F.dfd path F.atflags argv with
  | .execSh => callExecSh w F path argv Slots.empty
  | .asIs => do
    (fun s => match w.preloadLibiamroot s.env with
      | some env => .ok () { s with env := env }
      | none => .fault)
    callNext F path argv .environ
  | .loader buf program I off =>
    if isLdso w (basename path) then do
      let _ ← Exec.orNone .EAGAIN (F.ldso argv)
      callNext F buf argv envp
    else do
      match ← Exec.orNone .ENOEXEC (ldso w program I off) with
      | none => callExecSh w F path argv I
      | some (I, _) => callNargv F I argv

end

inductive NextCall where
  | execve (a : Handed)
  | execveat (dfd : Int) (a : Handed) (atflags : Word)
  | posixSpawn (a : Handed)

def execve (path : Str) (argv : List Str) (envp : Envp) : Exec NextCall :=
  execFrom w ⟨atFdcwd, 0, ldsoExecve w, .execve⟩ path argv envp

def execveat (dfd : Int) (path : Str) (argv : List Str) (envp : Envp) (atflags : Word) : Exec NextCall :=
  execFrom w ⟨dfd, atflags, ldsoExecveat, fun a => .execveat dfd a atflags⟩ path argv envp

/-- Without file actions and attributes. -/
def posixSpawn (path : Str) (argv : List Str) (envp : Envp) : Exec NextCall :=
  execFrom w ⟨atFdcwd, 0, ldsoPosixSpawn, .posixSpawn⟩ path argv envp

end

end Iamroot
