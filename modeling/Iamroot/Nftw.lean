import Mathlib.Algebra.Group.Nat.Defs
import Iamroot.Lib.Report
import Iamroot.Strip

/-!
# Walking a file tree

`do_nftw` keeps the path of what it visits in one buffer: it writes the name of
an entry behind that of the directory, and cuts it off again. What it calls are
the functions of the library, so that paths are those of the guest. The walk goes
no deeper than `fd_limit`, and not into a directory that it has come through.
-/

namespace Iamroot

open Callback

inductive FtwKind where
  | dir | lnk | other
  deriving DecidableEq

structure FtwStat where
  dev : Nat
  ino : Nat
  kind : FtwKind
  deriving DecidableEq

inductive FtwType where
  | f | d | dnr | dp | ns | sl | sln
  deriving DecidableEq

def FtwType.isDir (t : FtwType) : Bool := t == .d || t == .dp

/-- `struct history`, a list from the parent upwards. -/
structure History where
  dev : Nat
  ino : Nat
  level : Nat
  base : Nat
  deriving DecidableEq

structure FtwCall where
  path : Str
  st : FtwStat
  type : FtwType
  level : Nat
  base : Nat
  deriving DecidableEq

/-- The file system, which does not change during a walk, and the flags. -/
structure Ftw where
  lstat : Str → Except Errno FtwStat
  stat : Str → Except Errno FtwStat
  /-- The error of `open(path, O_RDONLY)`, if any. -/
  open_ : Str → Option Errno
  readdir : Str → Except Errno (List Str)
  phys : Bool
  depth : Bool
  mount : Bool
  /-- Entries have names, and no two of them the same. -/
  names : ∀ path ns, readdir path = .ok ns → ns.Nodup ∧ ∀ n ∈ ns, n ≠ [] ∧ nul ∉ n ∧ '/' ∉ n

/-! ## `do_nftw` -/

/-- The type that `stat` or `lstat` tells, with a `struct stat` that is zero when there is none. -/
def Ftw.classify (w : Ftw) (path : Str) : Except Errno (FtwType × FtwStat) :=
  match if w.phys then w.lstat path else w.stat path with
  | .ok st =>
    match st.kind with
    | .dir => .ok (if w.depth then .dp else .d, st)
    | .lnk => .ok (if w.phys then .sl else .sln, st)
    | .other => .ok (.f, st)
  | .error e =>
    match if !w.phys && e = .ENOENT then w.lstat path else .error e with
    | .ok st => .ok (.sln, st)
    | .error e => if e ≠ .EACCES then .error e else .ok (.ns, ⟨0, 0, .other⟩)

/-- `if ((flags & FTW_MOUNT) && h && type != FTW_NS && st.st_dev != h->dev)` -/
def Ftw.crosses (w : Ftw) (h : List History) (type : FtwType) (st : FtwStat) : Bool :=
  w.mount && type ≠ .ns && h.head?.any (·.dev ≠ st.dev)

/-- `for (; h; h = h->chain) if (h->dev == st.st_dev && h->ino == st.st_ino)` -/
def cyclic (h : List History) (st : FtwStat) : Bool := h.any fun a => a.dev = st.dev && a.ino = st.ino

def ftwLength (path : Str) : Nat := if path.getLast? = some '/' then path.length - 1 else path.length

def skipSlashes (path : Str) : Nat → Nat
  | 0 => 0
  | k + 1 => if path[k + 1]? = some '/' then skipSlashes path k else k + 1

def skipName (path : Str) : Nat → Nat
  | 0 => 0
  | k + 1 => if path[k]? ≠ some '/' then skipName path k else k + 1

def Ftw.callOf (w : Ftw) (h : List History) (path : Str) (type : FtwType) (st : FtwStat) : FtwCall where
  path := path
  st := st
  type := if type.isDir && w.open_ path = some .EACCES then .dnr else type
  level := h.head?.elim 0 (·.level + 1)
  base := h.head?.elim (skipName path (skipSlashes path (ftwLength path))) (·.base)

def FtwCall.history (c : FtwCall) : History := ⟨c.st.dev, c.st.ino, c.level, ftwLength c.path + 1⟩

/-- `path[i] = c;` `none` is a place outside of the buffer. -/
def bufSet (buf : List Char) (i : Nat) (c : Char) : Option (List Char) := if i < buf.length then some (buf.set i c) else none

def bufCpy (buf : List Char) (i : Nat) (s : Str) : Option (List Char) :=
  if i + s.length < buf.length then some (buf.take i ++ s ++ nul :: buf.drop (i + s.length + 1)) else none

/-- The buffer and the state of the caller that are left; `none` when a place outside of the buffer was written. -/
abbrev FtwOut (σ : Type) := Option (List Char × σ × Ended Errno)

def proceed {σ : Type} (out : FtwOut σ) (next : List Char → σ → FtwOut σ) : FtwOut σ :=
  out.bind fun r =>
    match r.2.2 with
    | .done => next r.1 r.2.1
    | _ => some r

section
variable {σ : Type} (w : Ftw) (fn : σ → FtwCall → σ × Int)

/-- `while ((de = readdir(d)))`. `PATH_MAX-l` is a `size_t`. -/
def nftwEntries (below : List Char → σ → FtwOut σ) (l j : Nat) : List Str → List Char → σ → FtwOut σ
  | [], buf, s => some (buf, s, .done)
  | name :: names, buf, s =>
    if name = ['.'] ∨ name = ['.', '.'] then nftwEntries below l j names buf s
    else if (2 ^ 64 + pathMax - l) % 2 ^ 64 ≤ name.length then some (buf, s, .failed .ENAMETOOLONG)
    else
      (bufSet buf j '/').bind fun buf =>
        (bufCpy buf (j + 1) name).bind fun buf =>
          proceed (below buf s) (nftwEntries below l j names)

/-- The entries of a directory, unless `fd_limit` is used up. -/
def nftwBelow (below : Option (List History → List Char → σ → FtwOut σ)) (h : List History) (c : FtwCall) (buf : List Char)
    (s : σ) : FtwOut σ :=
  match below with
  | none => some (buf, s, .done)
  | some below =>
    if c.type.isDir then
      match w.open_ c.path with
      | some e => some (buf, s, .failed e)
      | none =>
        match w.readdir c.path with
        | .error e => some (buf, s, .failed e)
        | .ok names => nftwEntries (below (c.history :: h)) c.path.length (ftwLength c.path) names buf s
    else some (buf, s, .done)

/-- The body of `do_nftw`. Before the entries the callback is called, or else behind them. -/
def nftwBody (below : Option (List History → List Char → σ → FtwOut σ)) (h : List History) (buf : List Char) (s : σ) : FtwOut σ :=
  match w.classify (cstr buf) with
  | .error e => some (buf, s, .failed e)
  | .ok (type, st) =>
    if w.crosses h type st then some (buf, s, .done)
    else
      let c := w.callOf h (cstr buf) type st
      proceed (some (buf, if w.depth then (s, .done) else call fn c s)) fun buf s =>
        if cyclic h st then some (buf, s, .done)
        else
          proceed (nftwBelow w below h c buf s) fun buf s =>
            (bufSet buf c.path.length nul).map fun buf =>
              (buf, if w.depth then call fn { c with path := cstr buf } s else (s, .done))

def doNftw : Nat → List History → List Char → σ → FtwOut σ
  | 0 => nftwBody w fn none
  | fdLimit + 1 => nftwBody w fn (some (doNftw fdLimit))

/-- `__nftw_callback`: the callback is told a path without the root directory. -/
def nftwCallback (env : Option Str) (s : σ) (c : FtwCall) : σ × Int :=
  let buf := strncpy c.path pathMax
  fn s { c with path := (striprootdir env buf).getD buf }

def nftw (env : Option Str) (mem : List Char) (path : Str) (fdLimit : Int) (s : σ) : Option (σ × Ended Errno) :=
  if fdLimit ≤ 0 then some (s, .done)
  else if pathMax < path.length then some (s, .failed .ENAMETOOLONG)
  else (bufCpy mem 0 path).bind fun buf => (doNftw w (nftwCallback fn env) fdLimit.toNat [] buf s).map (·.2)

end

/-! ## The walk without the buffer -/

def ftwJoin (path name : Str) : Str := path.take (ftwLength path) ++ '/' :: name

namespace Ftw
variable (w : Ftw)

def walkEntries (below : Str → Report FtwCall Errno) (path : Str) : List Str → Report FtwCall Errno
  | [] => .empty
  | name :: names =>
    if name = ['.'] ∨ name = ['.', '.'] then walkEntries below path names
    else if pathMax - path.length ≤ name.length then .error .ENAMETOOLONG
    else (below (ftwJoin path name)).seq (walkEntries below path names)

def walkBelow (below : Option (List History → Str → Report FtwCall Errno)) (h : List History) (c : FtwCall) : Report FtwCall Errno :=
  match below with
  | none => .empty
  | some below =>
    if c.type.isDir then
      match w.open_ c.path with
      | some e => .error e
      | none =>
        match w.readdir c.path with
        | .error e => .error e
        | .ok names => walkEntries (below (c.history :: h)) c.path names
    else .empty

def walkBody (below : Option (List History → Str → Report FtwCall Errno)) (h : List History) (path : Str) : Report FtwCall Errno :=
  match w.classify path with
  | .error e => .error e
  | .ok (type, st) =>
    if w.crosses h type st then .empty
    else
      let c := w.callOf h path type st
      let last : Report FtwCall Errno := if w.depth then .event c else .empty
      (if w.depth then .empty else .event c : Report FtwCall Errno).seq
        (if cyclic h st then .empty else (w.walkBelow below h c).seq last)

/-- What `do_nftw` calls its callback with. -/
def walk : Nat → List History → Str → Report FtwCall Errno
  | 0 => w.walkBody none
  | fdLimit + 1 => w.walkBody (some (walk fdLimit))

end Ftw

end Iamroot
