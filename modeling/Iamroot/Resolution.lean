import Iamroot.RealpathHost
import Iamroot.Sanitize

/-!
# Path resolution

`path_resolution2` puts the root directory, or the path of a descriptor, before
the path, sanitises the result and walks it twice, with a test of the ignore
expression before and between the walks. A walk that fails leaves the buffer as
it is. The expression is a parameter: none when it did not compile.

A null `path`, which the function refuses, is not a `Str`.
-/

namespace Iamroot

open FileTree

/-! ## `path_resolution2` -/

def Ret.bind {α β : Type} (x : Ret α) (f : α → Ret β) : Ret β :=
  match x with
  | .done a => f a
  | .fail e => .fail e
  | .fault => .fault
  | .unfinished => .unfinished

theorem Ret.of_bind {α β : Type} {x : Ret α} {f : α → Ret β} {b : β} (h : x.bind f = .done b) :
    ∃ a, x = .done a ∧ f a = .done b := by
  cases x with
  | done a => exact ⟨a, rfl, h⟩
  | fail | fault | unfinished => cases h

def ignore (re : Option (Str → Bool)) (path : Str) : Bool := path ≠ [] ∧ re.any (· path)

def allowMagicLinks (prflags : Word) : Bool := prflags &&& prNomagiclinks == 0

def allowIgnore (prflags : Word) : Bool := prflags &&& prNoignore == 0

def allowWalkAlong (prflags : Word) : Bool := prflags &&& prNowalkalong == 0

def procRoot : Str := ['/', 'p', 'r', 'o', 'c', '/', '1', '/', 'r', 'o', 'o', 't']

def devFd : Str := ['/', 'd', 'e', 'v', '/', 'f', 'd', '/']

def basename (path : Str) : Str := path.rtakeWhile (· ≠ '/')

def copyAsIs (path : Str) (bufsiz : Nat) : Ret Str :=
  let buf := strncpy path bufsiz
  if strnlen buf bufsiz ≠ strlen path then .fail .ENAMETOOLONG else .done buf

/-- The root directory of the process, empty for the host's own. -/
def rootOf (env : Option Str) : Str := if streq (getrootdir env) ['/'] then [] else getrootdir env

section
variable (h : Host) (env : Option Str) (re : Option (Str → Bool)) (fuel : Nat) (bufsiz : Nat) (atflags prflags : Word)

/-- `if (__realpathat(buf, tmp, atflags)) _strncpy(buf, tmp, bufsiz);` with the errno that it leaves. -/
def walkBuf (errno : Option Errno) (buf : Str) : Ret (Str × Option Errno) :=
  match realpathat h env errno fuel buf atflags with
  | .done tmp => .done (strncpy tmp bufsiz, errno)
  | .fail e => .done (buf, some e)
  | .fault => .fault
  | .unfinished => .unfinished

def finishBuf (errno : Option Errno) (isAtrootfd : Bool) (buf : Str) : Ret Str :=
  let root := rootOf env
  let len := strlen root
  let buf := pathSanitize buf
  (if followSymlink atflags then walkBuf h env fuel bufsiz atflags errno buf else .done (buf, errno)).bind fun r =>
    let buf := if root ≠ [] ∧ isAtrootfd ∧ strleq r.1 root = false then strncpy root bufsiz else r.1
    let buf := if strleq buf root ∧ allowIgnore prflags ∧ ignore re (buf.drop len) then (striprootdir env buf).getD buf
      else buf
    if allowWalkAlong prflags then (walkBuf h env fuel bufsiz atflags r.2 buf).bind fun r => .done r.1 else .done buf

/-- The path in `buf`; the return value of the C function is its length. -/
def pathResolution2 (errno : Option Errno) (dfd : Int) (path : Str) : Ret Str :=
  if strnlen path pathMax = pathMax then .fail .ENAMETOOLONG
  else if allowMagicLinks prflags ∧ streq path procRoot then
    let buf := strncpy ['/'] bufsiz
    if strnlen buf bufsiz ≠ 1 then .fail .ENAMETOOLONG else .done buf
  else if allowMagicLinks prflags ∧ strneq path devFd devFd.length then copyAsIs path bufsiz
  else if allowIgnore prflags ∧ ignore re path then copyAsIs path bufsiz
  else
    let root := rootOf env
    let len := strlen root
    if isAbs path then
      let path := if root ≠ [] ∧ strleq path root then path.drop len else path
      match snprintf (root ++ path) bufsiz with
      | .error _ => .fail .ENAMETOOLONG
      | .ok buf => finishBuf h env re fuel bufsiz atflags prflags errno false buf
    else if dfd ≠ atFdcwd then
      match h.fpath dfd with
      | .error e => .fail e
      | .ok dirbuf =>
        if isAbs dirbuf = false then copyAsIs path bufsiz
        else
          match snprintf (dirbuf ++ '/' :: path) bufsiz with
          | .error _ => .fail .ENAMETOOLONG
          | .ok buf => finishBuf h env re fuel bufsiz atflags prflags errno (streq root dirbuf) buf
    else finishBuf h env re fuel bufsiz atflags prflags errno false (strncpy path bufsiz)

def pathResolution (errno : Option Errno) (dfd : Int) (path : Str) : Ret Str :=
  pathResolution2 h env re fuel bufsiz atflags 0 errno dfd path

end

end Iamroot
