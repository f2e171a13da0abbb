import Iamroot.ExecEnv
import Iamroot.Hashbang

/-!
# `argv[0]` in a chain of execs

A program is started with the `argv[0]` of its own caller. With a loader that has
the option `--argv0` the string goes there, and with the other ones into a variable,
which the library reads when the program starts. Nothing removes the variable, so
that the next exec hands it over, and the library reads it again.

What takes a vector from the underlying call to `main` is no part of the library:
the kernel, with its rule for scripts, a dynamic loader that is run as a program,
and the shell that runs `exec.sh`. Scripts of interpreters that are scripts are left out.
-/

namespace Iamroot

/-! ## The dynamic loader, run as a program -/

/-- The options whose argument the loader keeps for itself. -/
def loaderOptions : List Str := ["--preload".toList, "--library-path".toList, "--inhibit-rpath".toList]

/-- The vector that a loader starts the program with, of the arguments that follow its own name; `none` when
it starts no program. -/
def loaderArgs (argv0 : Option Str) : List Str → Option (List Str)
  | [] => none
  | [x] => if "--".toList <+: x then none else some [argv0.getD x]
  | x :: y :: l =>
    if x = "--argv0".toList then loaderArgs (some y) l
    else if loaderOptions.contains x then loaderArgs argv0 l
    else if x = "--inhibit-cache".toList then loaderArgs argv0 (y :: l)
    else if "--".toList <+: x then none
    else some (argv0.getD x :: y :: l)

/-! ## `exec.sh` -/

/-- `path_resolution`, in the substitution `$(…)` that takes the newlines at the end away. -/
def shPathResolution (root pwd path : Str) : Str :=
  (if path.head? = some '/' then root ++ path else pwd ++ '/' :: path).rdropWhile (· = '\n')

/-- An argument that is a path, of `mountpoint` and of `ldd`. -/
def shInroot (root arg : Str) : Str := if arg.head? = some '-' then arg else root ++ arg

def ldconfigArgs (root pwd : Str) : Str → List Str → List Str
  | _, [] => []
  | prev, cur :: l =>
    (if prev = "-r".toList ∨ prev = "-f".toList ∨ cur.head? ≠ some '-' then shPathResolution root pwd cur else cur) ::
      ldconfigArgs root pwd cur l

/-- The command that `exec.sh` ends with, or `none` when it only exits. -/
def execShCommand (root pwd shell path : Str) (args : List Str) : Option (Str × List Str) :=
  let inchrootPath := shPathResolution root pwd path
  let outside := root = [] ∨ root = ['/']
  let name := basename path
  if ["mount".toList, "umount".toList].contains name then none
  else if name = "mountpoint".toList then some (inchrootPath, args.map (shInroot root))
  else if ["build-locale-archive".toList, "chfn".toList, "chkstat".toList].contains name ∨ ".postinst".toList <:+ name then none
  else if name = "busybox".toList then some (inchrootPath, args)
  else if "glibc_post_upgrade.".toList <+: name then
    if outside then some ("/sbin/ldconfig".toList, []) else some (root ++ "/sbin/ldconfig".toList, ["-r".toList, root])
  else if ["ldconfig".toList, "ldconfig.real".toList].contains name then
    some (inchrootPath, if outside then args else ldconfigArgs root pwd [] args ++
      if args.dropLast.contains "-r".toList then [] else ["-r".toList, root])
  else if ["gpasswd".toList, "passwd".toList, "su".toList].contains name then none
  else if name = "bbsuid".toList then none
  else if name = "ldd".toList then some (inchrootPath, args.map (shInroot root))
  else if "ld".toList <+: name ∧ ".so".toList <:+: name.drop 2 then some (inchrootPath, args)
  else if ["sh".toList, "ksh".toList].contains name then some (shell, args)
  else if name = "pwd".toList then some ("echo".toList, [pwd])
  else some (inchrootPath, args)

/-! ## Process images -/

inductive Binary where
  | program
  | script (interp : Str) (arg : Option Str)
  | loader
  | execSh
  deriving DecidableEq

def Binary.interp : Binary → Option Str
  | .script interp _ => some interp
  | .program | .loader | .execSh => none

/-- The environment that a program starts with; `mem` are the other strings of its own. -/
def imageEnv (mem : Nat → Str) (l : List Str) : Env :=
  Env.start (fun p => match p with | .caller k => l[k]?.getD (mem k) | .owned _ => []) (List.range l.length)

/-- The start-up of a process that has the library: the vector that `main` gets. -/
def libcStartMain (e : Env) (argv : List Str) : Option (List Str) := do
  match ← getenv e "argv0".toList with
  | some argv0 => some (argv0 :: argv.tail)
  | none => some argv

/-- A process that runs a program: whether the library is in it, the `argv[0]` that `main` has seen, and the one
that its caller gave. -/
structure Image where
  env : Env
  loaded : Bool
  argv0 : Option Str
  asked : Option Str

/-- An exec of a chain: the calls on the environment that come before it, its arguments, the files as they are then,
and whether the library is in the program that it starts. -/
structure Link where
  world : ExecWorld
  files : Str → Option Binary
  loaded : Bool
  /-- the other strings of the started program -/
  mem : Nat → Str
  /-- `PWD`, the login shell, and the environment that the shell hands on, when `exec.sh` is run -/
  pwd : Str
  loginShell : Str
  shEnv : List Str
  errno : Option Errno
  calls : List EnvCall
  path : Str
  argv : List Str
  envp : Envp

namespace Link

variable (k : Link)

/-- The vector that `main` gets from the kernel and from the loader. -/
def start (path : Str) (argv : List Str) : Option (List Str) :=
  match k.files path with
  | some .program => some argv
  | some (.script interp arg) => some (interp :: (arg.toList ++ path :: argv.tail))
  | some .loader => loaderArgs none argv.tail
  | some .execSh | none => none

def execShCommand (env : Str → Option Str) (path : Str) (args : List Str) : Option (Str × List Str) :=
  Iamroot.execShCommand ((env "IAMROOT_ROOT".toList).getD []) k.pwd ((env "SHELL".toList).getD k.loginShell) path args

/-- `exec.sh` unsets the variables of the loader, so that the library is not in what it runs. -/
def runExecSh (asked : Option Str) (a : Handed) : Option Image :=
  match a.argv.tail with
  | [] => none
  | path :: args => do
    let c ← k.execShCommand (valueOf · (a.envp.getD [])) path args
    let argv ← k.start c.1 (c.1 :: c.2)
    some ⟨imageEnv k.mem k.shEnv, false, argv.head?, asked⟩

/-- The underlying call: -1, with the process as it is, without the file. -/
def nextExecve (i : Image) (asked : Option Str) (a : Handed) : Option Image :=
  match k.files a.path with
  | none => some i
  | some .execSh => k.runExecSh asked a
  | some _ => do
    let argv ← k.start a.path a.argv
    let env := imageEnv k.mem (a.envp.getD [])
    let argv ← if k.loaded then libcStartMain env argv else some argv
    some ⟨env, k.loaded, argv.head?, asked⟩

def target (s : ExecState) : Str :=
  match resolveAt k.world atFdcwd k.path execBufsiz 0 s, getenv s.env "IAMROOT_ROOT".toList with
  | .ok buf _, some root => if inchroot root then buf else k.path
  | _, _ => k.path

/-- What the caller gives: its `argv[0]`, or the name that the hashbang rule gives. -/
def asked (i : Image) : Option Str :=
  if i.loaded then
    match takeEnvp k.envp ⟨i.env, k.errno⟩ with
    | .ok _ s => (k.start (k.target s) k.argv).bind List.head?
    | _ => none
  else (k.start k.path k.argv).bind List.head?

/-- The exec, of the library or of the process that is without it; `none` when the process ends. -/
def exec (i : Image) : Option Image :=
  if i.loaded then
    match execve k.world k.path k.argv k.envp ⟨i.env, k.errno⟩ with
    | .ok c s => k.nextExecve { i with env := s.env } (k.asked i) c.args
    | .err _ s => some { i with env := s.env }
    | _ => none
  else do
    let envp ← i.env.handed k.envp
    k.nextExecve i (k.asked i) ⟨k.path, k.argv, envp⟩

end Link

def Link.before (k : Link) (i : Option Image) : Option Image := do
  let i ← i
  let env ← Run.exec envStep (some i.env) k.calls
  some { i with env := env }

def chainStep (i : Option Image) (k : Link) : Option Image := (k.before i).bind k.exec

/-! ## What a loader makes of its vector -/

section
variable {argv0 : Option Str} {l : List Str}

end

/-! ## The environment that is handed over -/

/-- The interpreter of a script; an empty file is one of the shell's. -/
def hashbang (f : ExecFile) : Option Str :=
  if f.size = 0 then some pathBshell
  else
    match f.content with
    | .ok s => if s.take 2 = scriptMag then some (hashbangWords (s.drop 2)).1 else none
    | .error _ => none

/-- The first line is read as a whole, after the path in the buffer. -/
def LineFits (w : ExecWorld) (buf : Str) : Prop :=
  ∀ f s, w.file buf = .ok f → f.content = .ok s → buf.length + 2 + (scriptLine s).length ≤ execBufsiz

section
variable {w : ExecWorld} {path buf program : Str} {argv : List Str} {s s₁ s₂ : ExecState} {I : Slots} {off : Nat}

def Env.root (e : Env) : Option Str := e.value "IAMROOT_ROOT".toList

def Exec.Returns {α : Type} (P : α → Prop) (x : Exec α) : Prop := ∀ s a s', x s = .ok a s' → P a

theorem Exec.Returns.pure {α : Type} {P : α → Prop} {a : α} (h : P a) : Exec.Returns P (Pure.pure a) := by
  intro s b s' hb
  cases hb
  exact h

theorem Exec.Returns.bind {α β : Type} {P : β → Prop} {x : Exec α} {f : α → Exec β} (hf : ∀ a, Exec.Returns P (f a)) :
    Exec.Returns P (x >>= f) := by
  intro s b s' hb
  obtain ⟨a, s₁, -, hb⟩ := Exec.bind_ok.mp hb
  exact hf a s₁ b s' hb

end

/-! ## What the underlying call makes of the process -/

section
variable {F : FrontEnd NextCall} {envp : Envp} {c : NextCall} {path : Str} {argv : List Str} {s s₂ : ExecState} {I : Slots}

end

namespace Link

variable {k : Link} {asked : Option Str} {a : Handed} {i i' : Image}

section
variable (k : Link) (target : Str)

/-- `exec.sh` runs the file, which is a script, or a program that is given its path on the host for a name. -/
def ByExecSh (e : Env) : Prop :=
  ∀ c, k.execShCommand e.value k.path k.argv.tail = some c → k.files c.1 = k.files target ∧
    ((∃ interp arg, k.files c.1 = some (.script interp arg)) ∨ k.files c.1 = some .program ∧ k.argv.head? = some c.1)

/-- The condition where the text of the function goes on. The program of a loader without `--argv0` has the library,
which reads the variable. -/
def RightAt (s : ExecState) : Stage → Prop
  | .execSh => k.ByExecSh target s.env
  | .asIs => True
  | .loader buf program I off =>
    LineFits k.world buf ∧ (isLdso k.world (basename k.path) = false → ¬ "--".toList <+: program ∧
      (∀ s', ldso k.world program I off s = .err (some .ENOEXEC) s' → k.ByExecSh target s'.env) ∧
      ∀ o t s', ldsoFind k.world program I off s = .ok (o, t) s' →
        (∀ b, k.files t.interp = some b → b = .loader) ∧ (o.argv0 = false → k.loaded = true))

end

/-- The strings of `envp` are the program's own, and no variable of the library's goes. -/
def Passes (k : Link) (e : Env) : Prop :=
  ∀ l, k.envp = .list l →
    (∀ p ∈ l, ∃ m, p = .caller m) ∧ ∀ j, .owned j ∈ e.entries → iamroot <+: e.mem (.owned j)

/-- The exec comes to a loader that has no option `--argv0`: it sets the variable. -/
def Sets (k : Link) (i : Image) : Prop :=
  i.loaded = true ∧ ∃ envp s buf program I off s₁ o t s₂, takeEnvp k.envp ⟨i.env, k.errno⟩ = .ok envp s ∧
    execStage k.world atFdcwd k.path 0 k.argv s = .ok (.loader buf program I off) s₁ ∧
    isLdso k.world (basename k.path) = false ∧ ldsoFind k.world program I off s₁ = .ok (o, t) s₂ ∧ o.argv0 = false

/-- An exec that sets the variable in no other way, and that starts a program under the name that was asked for if
the variable says nothing else. -/
structure Right (k : Link) (i : Image) : Prop where
  /-- the strings of `envp` do not bind the variable -/
  free : ∀ l, k.envp = .list l → ∀ p ∈ l, nameOf (i.env.mem p) ≠ some "argv0".toList
  /-- the shell has no variable that it was not given -/
  shell : i.env.value "argv0".toList = none → ¬ k.Sets i → valueOf "argv0".toList k.shEnv = none
  passes : i.loaded = true → k.Passes i.env
  stage : i.loaded = true → ∀ envp s stage s₁, takeEnvp k.envp ⟨i.env, k.errno⟩ = .ok envp s →
    execStage k.world atFdcwd k.path 0 k.argv s = .ok stage s₁ → k.RightAt (k.target s) s₁ stage

end Link

/-! ## The environment that an exec leaves -/

namespace Link

variable {k : Link} {i i' : Image}

/-- The environment is sound, and the variable is unset in it if it was before and the exec does not set it. -/
def Spares (k : Link) (i : Image) (e : Env) : Prop :=
  e.Ok ∧ (¬ k.Sets i → i.env.value "argv0".toList = none → e.value "argv0".toList = none)

end Link

/-! ## The ends of an exec -/

namespace Link

variable {k : Link} {i j i' : Image} {asked : Option Str} {a : Handed}

/-- The process goes on, or its program sees what was asked for. -/
def Seen (i i' : Image) : Prop := (i'.argv0 = i.argv0 ∧ i'.asked = i.asked) ∨ i'.argv0 = i'.asked

end Link

end Iamroot
