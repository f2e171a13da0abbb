import Mathlib.Data.List.DropRight
import Iamroot.Host
import Iamroot.Strip

/-!
# The symlink walk

`__realpathat` keeps the components that are still to be read at the end of the
array `stack`, from `p` on, and what is resolved in the array `output`. The text
of a link is read to the start of `stack` and moved down in front of the unread
part. One turn of the main loop is a function of these variables; the loop runs
on fuel, since an attribute may send it back where it was.

A null `filename`, which the function refuses, is not a `Str`.
-/

namespace Iamroot

/-- The variables of `__realpathat`. `output` is the array up to `q`. -/
structure Scan where
  stack : List Char
  p : Nat
  output : Str
  cnt : Nat
  nup : Nat
  checkDir : Bool
  errno : Option Errno

/-- How a turn of the loop ends: `continue`, `goto restart`, `break`, `return 0`, or no defined behaviour. -/
inductive Turn (σ : Type) where
  | next (s : σ)
  | restart (s : σ)
  | leave (s : σ)
  | fail (e : Errno)
  | fault

/-- What a call returns: `unfinished` when the fuel did not last. -/
inductive Ret (α : Type) where
  | done (a : α)
  | fail (e : Errno)
  | fault
  | unfinished
  deriving DecidableEq

def followSymlink (atflags : Word) : Bool :=
  atflags &&& atSymlinkFollow != 0 || atflags &&& atSymlinkNofollow == 0

def slashLen (s : Str) : Nat := (s.takeWhile (· = '/')).length

def popName (output : Str) : Str :=
  let out := output.rdropWhile (· ≠ '/')
  if 1 < out.length ∧ (2 < out.length ∨ out.head? ≠ some '/') then out.dropLast else out

def needsSlash (output : Str) : Bool := output.getLast?.any (· ≠ '/')

def getxattr (h : Host) (path : Str) (size : Nat) : Except Errno Str := do
  let value ← h.getxattr path
  if size < value.length then .error .ERANGE else .ok value

def readlink (h : Host) (path : Str) (bufsiz : Nat) : Except Errno Str :=
  if bufsiz = 0 then .error .EINVAL else (h.readlink path).map (·.take bufsiz)

/-- The code at `skip_readlink`; `piece` is the component that has been copied after `output`. -/
def skipReadlink (s : Scan) (piece : Str) (l0 : Nat) (up : Bool) : Turn Scan :=
  if up then .next { s with checkDir := false, output := popName s.output }
  else .next { s with
    output := if l0 = 0 then s.output else s.output ++ piece
    checkDir := s.stack[s.p]?.any (· ≠ nul) }

def followLink (env : Option Str) (s : Scan) (t : Str) : Turn Scan :=
  let k := t.length
  let stack := t ++ s.stack.drop k
  let root := if isAbs t && inchroot env then (getrootdir env).take (strlen (getrootdir env)) else []
  let lr := root.length
  -- `memmove(stack+lr, stack, k)` leaves the array, or takes the byte that ends it
  if stack.length ≤ lr + k then .fault
  else
    let stack := root ++ stack.take k ++ stack.drop (lr + k)
    let k := lr + k
    let p := if stack[k - 1]? = some '/' then s.p + slashLen (stack.drop s.p) else s.p
    if p < k then .fault
    else .restart { s with
      stack := stack.take (p - k) ++ stack.take k ++ stack.drop p
      p := p - k
      cnt := s.cnt + 1 }

def readlinkTurn (h : Host) (env : Option Str) (errnoSave : Option Errno) (s : Scan) (piece : Str) (l0 : Nat)
    (up : Bool) : Turn Scan :=
  match readlink h (s.output ++ piece) s.p with
  | .ok t =>
    if t.length = s.p then .fail .ENAMETOOLONG
    else if t.length = 0 then
      if s.errno = some .ENOENT then skipReadlink s piece l0 up else .fail .ENOENT
    else if s.cnt + 1 = symloopMax then .fail .ELOOP
    else followLink env s t
  | .error e =>
    if e = .ENOENT then skipReadlink { s with errno := some .ENOENT } piece l0 up
    else if e ≠ .EINVAL then .fail e
    else skipReadlink { s with errno := errnoSave } piece l0 up

/-- From `getxattr` on. The last byte of the value is left out. -/
def getxattrTurn (h : Host) (env : Option Str) (errnoSave : Option Errno) (s : Scan) (piece : Str) (l0 : Nat)
    (up : Bool) : Turn Scan :=
  match getxattr h (s.output ++ piece) s.p with
  | .error _ => readlinkTurn h env errnoSave { s with errno := errnoSave } piece l0 up
  | .ok value =>
    let k := value.length
    if k = s.p then .fail .ENAMETOOLONG
    else if k = 0 then readlinkTurn h env errnoSave s piece l0 up
    else
      let stack := value ++ s.stack.drop k
      -- `memcpy` between overlapping parts of the array
      if s.p - k + 1 < k - 1 then .fault
      else .restart { s with
        stack := stack.take (s.p - k + 1) ++ stack.take (k - 1) ++ stack.drop s.p
        p := s.p - (k - 1) }

def turn (h : Host) (env : Option Str) (errnoSave : Option Errno) (atflags : Word) (s : Scan) : Turn Scan :=
  if s.stack[s.p]? = some '/' then
    let p := s.p + 1
    .next { s with
      checkDir := false
      nup := 0
      output := if s.stack[p]? = some '/' ∧ s.stack[p + 1]? ≠ some '/' then ['/', '/'] else ['/']
      p := p }
  else
    let c := (s.stack.drop s.p).takeWhile fun c => c ≠ '/' ∧ c ≠ nul
    let l0 := c.length
    if l0 = 0 ∧ s.checkDir = false then .leave s
    else if c = dot then .next { s with p := s.p + l0 }
    else if needsSlash s.output ∧ s.p = 0 then .fail .ENAMETOOLONG
    else
      let stack := if needsSlash s.output then s.stack.set (s.p - 1) '/' else s.stack
      let p := if needsSlash s.output then s.p - 1 else s.p
      let l := if needsSlash s.output then l0 + 1 else l0
      if pathMax ≤ s.output.length + l then .fail .ENAMETOOLONG
      else
        let piece := (stack.drop p).take l
        let s := { s with stack := stack, p := p + l }
        let up := c = dotdot
        if up ∧ s.output.length ≤ 3 * s.nup then .next { s with nup := s.nup + 1, output := s.output ++ piece }
        else if up ∧ s.checkDir = false ∨ followSymlink atflags = false then skipReadlink s piece l0 up
        else getxattrTurn h env errnoSave s piece l0 up

def loop (h : Host) (env : Option Str) (errnoSave : Option Errno) (atflags : Word) : Nat → Scan → Ret Scan
  | 0, _ => .unfinished
  | fuel + 1, s =>
    match turn h env errnoSave atflags s with
    | .next s => loop h env errnoSave atflags fuel { s with p := s.p + slashLen (s.stack.drop s.p) }
    | .restart s => loop h env errnoSave atflags fuel s
    | .leave s => .done s
    | .fail e => .fail e
    | .fault => .fault

def cwdUp (cwd : Str) : Str :=
  let s := cwd.rdropWhile (· ≠ '/')
  let s := if s = [] then cwd.take 1 else s
  if 1 < s.length then s.dropLast else s

/-- The index `p` in `output` after `nup` times `../`. -/
def skipUps (q : Nat) : Nat → Nat → Nat
  | 0, p => p
  | nup + 1, p => skipUps q nup (if p + 2 < q then p + 3 else p + 2)

def absolute (h : Host) (s : Scan) : Ret Str :=
  if isAbs s.output then .done s.output
  else
    match h.getcwd with
    | .error e => .fail e
    | .ok cwd =>
      if pathMax < cwd.length then .fail .ERANGE
      else
        let cwd := cwdUp^[s.nup] cwd
        let rest := s.output.drop (skipUps s.output.length s.nup 0)
        let cwd := if rest ≠ [] ∧ cwd.getLast? ≠ some '/' then cwd ++ ['/'] else cwd
        if pathMax ≤ cwd.length + rest.length + 1 then .fail .ENAMETOOLONG else .done (cwd ++ rest)

def initial (filename : Str) (errno : Option Errno) : Scan where
  stack := List.replicate (pathMax - filename.length) nul ++ filename ++ [nul]
  p := pathMax - filename.length
  output := []
  cnt := 0
  nup := 0
  checkDir := false
  errno := errno

def realpathat (h : Host) (env : Option Str) (errno : Option Errno) (fuel : Nat) (filename : Str) (atflags : Word) :
    Ret Str :=
  let l := strnlen filename (pathMax + 1)
  if l = 0 then .fail .ENOENT
  else if pathMax ≤ l then .fail .ENAMETOOLONG
  else
    match loop h env errno atflags fuel (initial filename errno) with
    | .done s => absolute h s
    | .fail e => .fail e
    | .fault => .fault
    | .unfinished => .unfinished

end Iamroot
