import Mathlib.Data.List.Infix

/-!
# C strings and errors

A C string is the list of its bytes, one `Char` each, without the NUL that
ends it. The string macros of `iamroot.h` are written on these lists; those
that work in a buffer go through `cstr`, which cuts at the first NUL.
-/

namespace Iamroot

abbrev Str := List Char

def nul : Char := '\x00'

def pathMax : Nat := 4096

def nameMax : Nat := 255

def symloopMax : Nat := 40

abbrev Word := BitVec 32

def minusOne : Word := BitVec.allOnes 32

def atFdcwd : Int := -100

def atSymlinkNofollow : Word := 0x100

def atSymlinkFollow : Word := 0x400

def prNomagiclinks : Word := 0x01

def prNoignore : Word := 0x02

def prNowalkalong : Word := 0x04

inductive Errno where
  | EPERM | ENOENT | EIO | ENOEXEC | EACCES | EEXIST | ENOTDIR | EINVAL | ENOSPC | EROFS
  | ERANGE | ENAMETOOLONG | ELOOP | ENODATA | ENOTSUP | EBADF | E2BIG | EAGAIN | ENOSYS
  deriving DecidableEq, Repr

def cstr (b : List Char) : Str := b.takeWhile (· ≠ nul)

def strnlen (s : Str) (n : Nat) : Nat := min s.length n

/-- `__strlen`: no string is looked at past `PATH_MAX`. -/
def strlen (s : Str) : Nat := strnlen s pathMax

def streq (a b : Str) : Bool := a == b

def strneq (a b : Str) (n : Nat) : Bool := a.take n == b.take n

/-- `__strleq`: `a` starts with the characters of `b`. -/
def strleq (a b : Str) : Bool := strneq a b (strlen b)

/-- `_strncpy`: the copy keeps one byte of the buffer for the NUL. -/
def strncpy (s : Str) (n : Nat) : Str := s.take (n - 1)

def snprintf (s : Str) (bufsiz : Nat) : Except Errno Str := if s.length < bufsiz then .ok s else .error .ENOSPC

def memmoveDown (b : List Char) (src n : Nat) : List Char := (b.drop src).take n ++ b.drop n

theorem cstr_append_nul (s : Str) (b : List Char) (hs : nul ∉ s) : cstr (s ++ nul :: b) = s := by
  unfold cstr
  rw [List.takeWhile_append_of_pos]
  · simp
  · intro c hc
    simpa using fun h : c = nul => hs (h ▸ hc)

theorem strlen_of_lt {s : Str} (h : s.length < pathMax) : strlen s = s.length := by
  unfold strlen strnlen; omega

@[simp] theorem streq_iff (a b : Str) : streq a b = true ↔ a = b := by simp [streq]

theorem streq_false {a b : Str} (h : a ≠ b) : streq a b = false := by simp [streq, h]

theorem take_length_prefix {a b : Str} : a.take b.length = b ↔ b <+: a :=
  ⟨fun h => h ▸ List.take_prefix _ _, fun h => (List.prefix_iff_eq_take.mp h).symm⟩

theorem strneq_length_iff (a b : Str) : strneq a b a.length = true ↔ a <+: b := by
  rw [strneq, List.take_length, beq_iff_eq, eq_comm]
  exact take_length_prefix

theorem strleq_iff {a b : Str} (hb : b.length < pathMax) : strleq a b = true ↔ b <+: a := by
  rw [strleq, strlen_of_lt hb, strneq, List.take_length, beq_iff_eq]
  exact take_length_prefix

theorem memmoveDown_nul {s : Str} (hs : nul ∉ s) {k : Nat} (hk : k ≤ s.length) :
    cstr (memmoveDown (s ++ [nul]) k (s.length - k + 1)) = s.drop k := by
  have h : (s ++ [nul]).drop k = s.drop k ++ [nul] := List.drop_append_of_le_length hk
  rw [memmoveDown, h, List.take_of_length_le (by simp), List.append_assoc]
  exact cstr_append_nul _ _ fun hm => hs (List.mem_of_mem_drop hm)

end Iamroot
