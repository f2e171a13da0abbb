import Mathlib.Data.List.AList
import Iamroot.Lib.Run
import Iamroot.Basic

/-!
# Extended attributes

The wrappers of the `xattr` family put `user.iamroot.` before the names of the
guest, except before those that begin with it, and the listing takes it away
again. The library keeps its own attributes under the same prefix. Two names of
the guest meet in one attribute of the host when they differ by that prefix
only.
-/

namespace Iamroot

def xattrsPrefix : Str := ['u', 's', 'e', 'r', '.', 'i', 'a', 'm', 'r', 'o', 'o', 't', '.']

def modeName : Str := ['m', 'o', 'd', 'e']

def uidName : Str := ['u', 'i', 'd']

def gidName : Str := ['g', 'i', 'd']

def pathResolutionName : Str :=
  ['p', 'a', 't', 'h', '-', 'r', 'e', 's', 'o', 'l', 'u', 't', 'i', 'o', 'n']

/-- The attributes in which the library keeps the mode, the owner and the redirects of a file. -/
def ownXattrs : List Str := [modeName, uidName, gidName, pathResolutionName].map (xattrsPrefix ++ ·)

def xattrNameMax : Nat := 255

def xattrListMax : Nat := 65536

def xattrCreate : Word := 0x1

def xattrReplace : Word := 0x2

/-! ## The host -/

def ValidXattr (name : Str) : Prop := name ≠ [] ∧ nul ∉ name ∧ name.length ≤ xattrNameMax

instance (name : Str) : Decidable (ValidXattr name) := inferInstanceAs (Decidable (_ ∧ _))

/-- The attributes of a file, in the order in which the kernel lists them. -/
structure Xattrs where
  map : AList fun _ : Str => Str
  valid : ∀ n ∈ map, ValidXattr n

namespace Xattrs

def lookup (x : Xattrs) (name : Str) : Option Str := x.map.lookup name

def keys (x : Xattrs) : List Str := x.map.keys

def insert (x : Xattrs) (name value : Str) (h : ValidXattr name) : Xattrs where
  map := x.map.insert name value
  valid := fun n hn => (x.map.mem_insert.mp hn).elim (fun e => e ▸ h) (x.valid n)

def erase (x : Xattrs) (name : Str) : Xattrs where
  map := x.map.erase name
  valid := fun n hn => x.valid n (AList.mem_erase.mp hn).2

end Xattrs

/-- The files by the paths, with the last link followed or not, and by the descriptors. -/
structure XattrFiles where
  xattrs : Nat → Xattrs
  names : Str → Option Nat
  lnames : Str → Option Nat
  fds : Int → Option Nat

def XattrFiles.put (fs : XattrFiles) (i : Nat) (x : Xattrs) : XattrFiles :=
  { fs with xattrs := Function.update fs.xattrs i x }

section
variable (fs : XattrFiles) (i : Nat) (name : Str)

def nextSetxattr (value : Str) (flags : Word) (v : Option Errno) : XattrFiles × Except Errno Unit :=
  match v with
  | some e => (fs, .error e)
  | none =>
    if h : ValidXattr name then
      if flags &&& ~~~(xattrCreate ||| xattrReplace) ≠ 0 then (fs, .error .EINVAL)
      else if flags &&& xattrCreate ≠ 0 ∧ ((fs.xattrs i).lookup name).isSome then (fs, .error .EEXIST)
      else if flags &&& xattrReplace ≠ 0 ∧ ((fs.xattrs i).lookup name).isSome = false then (fs, .error .ENODATA)
      else (fs.put i ((fs.xattrs i).insert name value h), .ok ())
    else (fs, .error .ERANGE)

def nextGetxattr (size : Nat) (v : Option Errno) : Except Errno (Nat × Str) :=
  match v with
  | some e => .error e
  | none =>
    if ValidXattr name then
      match (fs.xattrs i).lookup name with
      | none => .error .ENODATA
      | some value =>
        if size = 0 then .ok (value.length, [])
        else if size < value.length then .error .ERANGE
        else .ok (value.length, value)
    else .error .ERANGE

def nextRemovexattr (v : Option Errno) : XattrFiles × Except Errno Unit :=
  match v with
  | some e => (fs, .error e)
  | none =>
    if ValidXattr name then
      if ((fs.xattrs i).lookup name).isSome then (fs.put i ((fs.xattrs i).erase name), .ok ())
      else (fs, .error .ENODATA)
    else (fs, .error .ERANGE)

end

def terminated (names : List Str) : Str := names.flatMap (· ++ [nul])

/-- A list that is larger than `XATTR_LIST_MAX` is not to be had. -/
def nextListxattr (fs : XattrFiles) (i size : Nat) (v : Option Errno) : Except Errno Str :=
  match v with
  | some e => .error e
  | none =>
    let list := terminated (fs.xattrs i).keys
    if list.length ≤ size then .ok list else .error (if xattrListMax ≤ size then .E2BIG else .ERANGE)

/-! ## The wrappers -/

/-- The name for the host; `siz` is the size of the buffer it is written to. -/
def xattrName (siz : Nat) (name : Str) : Except Errno Str :=
  if strneq name xattrsPrefix xattrsPrefix.length then .ok name else snprintf (xattrsPrefix ++ name) siz

structure XattrResolve where
  path : XattrFiles → Int → Str → Word → Word → Except Errno Str
  fpath : XattrFiles → Int → Except Errno Str

/-- The file that a call is about: of a path, of a path whose last link is not
followed, or of a descriptor. -/
inductive XattrArg where
  | path (path : Str)
  | lpath (path : Str)
  | fd (fd : Int)

def found (f : Option Nat) (e : Errno) : Except Errno Nat :=
  match f with
  | some i => .ok i
  | none => .error e

def XattrArg.file (resolve : XattrResolve) (fs : XattrFiles) : XattrArg → Except Errno Nat
  | .path p => do
    let buf ← resolve.path fs atFdcwd p 0 0
    found (fs.names buf) .ENOENT
  | .lpath p => do
    let buf ← resolve.path fs atFdcwd p atSymlinkNofollow prNowalkalong
    found (fs.lnames buf) .ENOENT
  | .fd d => do
    let _ ← resolve.fpath fs d
    found (fs.fds d) .EBADF

/-- `xbuf` in `setxattr` and `fsetxattr`, in `removexattr` and `fremovexattr`; those
of `lsetxattr` and `lremovexattr` are larger. -/
def XattrArg.bufsiz : XattrArg → Nat
  | .lpath _ => xattrListMax + 1
  | _ => xattrNameMax + 1

section
variable (resolve : XattrResolve) (fs : XattrFiles) (a : XattrArg)

/-- `setxattr`, `lsetxattr` and `fsetxattr`. -/
def XattrArg.setxattr (name value : Str) (flags : Word) (v : Option Errno) : XattrFiles × Except Errno Unit :=
  match a.file resolve fs, xattrName a.bufsiz name with
  | .error e, _ => (fs, .error e)
  | .ok _, .error e => (fs, .error e)
  | .ok i, .ok n => nextSetxattr fs i n value flags v

/-- `getxattr`, `lgetxattr` and `fgetxattr`. -/
def XattrArg.getxattr (name : Str) (size : Nat) (v : Option Errno) : Except Errno (Nat × Str) := do
  let i ← a.file resolve fs
  let n ← xattrName (xattrNameMax + 1) name
  nextGetxattr fs i n size v

/-- `removexattr`, `lremovexattr` and `fremovexattr`. -/
def XattrArg.removexattr (name : Str) (v : Option Errno) : XattrFiles × Except Errno Unit :=
  match a.file resolve fs, xattrName a.bufsiz name with
  | .error e, _ => (fs, .error e)
  | .ok _, .error e => (fs, .error e)
  | .ok i, .ok n => nextRemovexattr fs i n v

/-- The loop over what the host listed, at the byte `i`; `list` is what was kept of
the strings before. A name of which nothing is left is overwritten by the next. -/
def listLoop (xbuf : Str) (xsize : Nat) : Nat → Nat → Str → Str
  | 0, _, list => list
  | fuel + 1, i, list =>
    let name := cstr (xbuf.drop i)
    let len := name.length
    if len = 0 then list
    else
      let off := if strneq name xattrsPrefix xattrsPrefix.length then xattrsPrefix.length else 0
      let list := if len ≠ off then list ++ name.drop off ++ [nul] else list
      if i + len + 1 < xsize then listLoop xbuf xsize fuel (i + len + 1) list else list

/-- The size of `xbuf` less one in `listxattr`, and in `llistxattr` and `flistxattr`. -/
def XattrArg.listsiz : XattrArg → Nat
  | .path _ => xattrNameMax
  | _ => xattrListMax

/-- `listxattr`, `llistxattr` and `flistxattr`: the list, which may be larger than
the caller's, whose size is not looked at. -/
def XattrArg.listxattr (v : Option Errno) : Except Errno Str := do
  let i ← a.file resolve fs
  let xbuf ← nextListxattr fs i a.listsiz v
  return listLoop (xbuf ++ [nul]) xbuf.length (xbuf.length + 1) 0 []

end

end Iamroot
