import Mathlib.Data.List.ReduceOption
import Mathlib.Data.List.Count
import Iamroot.Lib.Run
import Iamroot.Basic

/-!
# The environment of the library

`env.c` has its own `setenv`, `putenv`, `unsetenv` and `clearenv`, which keep
the strings they allocate in the table `env_alloced` and release them when
they leave the environment. The array holds pointers, so the model does too:
a string that is read after its release makes the whole call fail.
-/

namespace Iamroot

/-- A string of the caller's, or one that `setenv` has allocated. -/
inductive Ptr where
  | caller (n : Nat)
  | owned (n : Nat)
  deriving DecidableEq

structure Env where
  mem : Ptr → Str
  environ : Option (List Ptr)
  alloced : List (Option Ptr)
  freed : List Ptr
  next : Nat

namespace Env

def read (e : Env) (p : Ptr) : Option Str := if p ∈ e.freed then none else some (e.mem p)

def entries (e : Env) : List Ptr := e.environ.getD []

end Env

/-- The loop of `__env_rm_add`: the table, and the pointer that is released. -/
def rmAdd : List (Option Ptr) → Option Ptr → Option Ptr → List (Option Ptr) × Option Ptr
  | [], _, none => ([], none)
  | [], _, some p => ([some p], none)
  | slot :: l, old, new =>
    if slot = old then (new :: l, old)
    else if slot = none ∧ new ≠ none then
      let r := rmAdd l old none
      (new :: r.1, r.2)
    else
      let r := rmAdd l old new
      (slot :: r.1, r.2)

def envRmAdd (e : Env) (old new : Option Ptr) : Env :=
  let r := rmAdd e.alloced old new
  { e with alloced := r.1, freed := r.2.toList ++ e.freed }

def nameLen (s : Str) : Nat := (s.takeWhile (· ≠ '=')).length

/-- `!strncmp(name, *e, l) && l[*e] == '='`. -/
def bindsAt (name s : Str) (l : Nat) : Bool := strneq name s l && s[l]? == some '='

/-! Outer `none`: a released string was read. -/

def getenvLoop (e : Env) (name : Str) (l : Nat) : List Ptr → Option (Option Str)
  | [] => some none
  | q :: env => do
    let s ← e.read q
    if bindsAt name s l then some (some (s.drop (l + 1))) else getenvLoop e name l env

def getenv (e : Env) (name : Str) : Option (Option Str) :=
  let l := nameLen name
  if l = 0 ∨ l < name.length then some none else getenvLoop e name l e.entries

/-- The loop of `__putenv`: the array with `p` in the place of an entry, and that entry. -/
def putLoop (e : Env) (p : Ptr) (s : Str) (l : Nat) : List Ptr → Option (Option (List Ptr × Ptr))
  | [] => some none
  | q :: env => do
    let t ← e.read q
    if strneq s t (l + 1) then some (some (p :: env, q))
    else
      let r ← putLoop e p s l env
      some (r.map fun r => (q :: r.1, r.2))

def putenvAt (e : Env) (p : Ptr) (s : Str) (l : Nat) (r : Option Ptr) : Option Env := do
  match ← putLoop e p s l e.entries with
  | some (env, tmp) => some (envRmAdd { e with environ := some env } (some tmp) r)
  | none =>
    let e := { e with environ := some (e.entries ++ [p]) }
    if r ≠ none then some (envRmAdd e none r) else some e

def unsetLoop (name : Str) (l : Nat) : Env → List Ptr → Option (Env × List Ptr)
  | e, [] => some (e, [])
  | e, q :: env => do
    let s ← e.read q
    if bindsAt name s l then unsetLoop name l (envRmAdd e (some q) none) env
    else
      let r ← unsetLoop name l e env
      some (r.1, q :: r.2)

def unsetenv (e : Env) (name : Str) : Option (Env × Int) :=
  let l := nameLen name
  if l = 0 ∨ l < name.length then some (e, -1)
  else
    match e.environ with
    | none => some (e, 0)
    | some env => do
      let r ← unsetLoop name l e env
      some ({ r.1 with environ := some r.2 }, 0)

def putenv (e : Env) (p : Ptr) : Option (Env × Int) := do
  let s ← e.read p
  let l := nameLen s
  if l = 0 ∨ l = s.length then unsetenv e s
  else
    let e ← putenvAt e p s l none
    some (e, 0)

def setenvNew (e : Env) (var value : Str) (l1 : Nat) : Option (Env × Int) := do
  let p := Ptr.owned e.next
  let s := var ++ '=' :: value
  let e := { e with mem := Function.update e.mem p s, next := e.next + 1 }
  let e ← putenvAt e p s l1 (some p)
  some (e, 0)

def setenv (e : Env) (var value : Str) (overwrite : Bool) : Option (Env × Int) :=
  let l1 := nameLen var
  if l1 = 0 ∨ l1 < var.length then some (e, -1)
  else if overwrite then setenvNew e var value l1
  else do
    let old ← getenv e var
    if old.isSome then some (e, 0) else setenvNew e var value l1

def clearenv (e : Env) : Env × Int :=
  (e.entries.foldl (fun e q => envRmAdd e (some q) none) { e with environ := none }, 0)

def iamroot : Str := ['I', 'A', 'M', 'R', 'O', 'O', 'T']

def resetLoop : Env → List Ptr → Option Env
  | e, [] => some e
  | e, q :: env => do
    let s ← e.read q
    resetLoop (if !strneq s iamroot iamroot.length then envRmAdd e (some q) none else e) env

def putAll : Env → List Ptr → Option Env
  | e, [] => some e
  | e, p :: env => do
    let r ← putenv e p
    putAll r.1 env

/-- `_resetenv`, with an `envp` that is not null. -/
def resetenv (e : Env) (envp : List Ptr) : Option Env := do
  let e ← resetLoop e e.entries
  putAll e envp

/-! ## Runs -/

inductive EnvCall where
  | setenv (var value : Str) (overwrite : Bool)
  | putenv (s : Nat)
  | unsetenv (name : Str)
  | clearenv

def EnvCall.run (e : Env) : EnvCall → Option Env
  | setenv var value overwrite => (Iamroot.setenv e var value overwrite).map Prod.fst
  | putenv s => (Iamroot.putenv e (.caller s)).map Prod.fst
  | unsetenv name => (Iamroot.unsetenv e name).map Prod.fst
  | clearenv => some (Iamroot.clearenv e).1

def Env.start (mem : Ptr → Str) (env : List Nat) : Env where
  mem := mem
  environ := some (env.map Ptr.caller)
  alloced := []
  freed := []
  next := 0

def envStep (s : Option Env) (c : EnvCall) : Option Env := s.bind fun e => c.run e

end Iamroot
