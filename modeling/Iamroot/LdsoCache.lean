import Iamroot.ElfLists
import Iamroot.Resolution

/-!
# The cache of the loader

`__ldso_cache` looks a soname up in `ld.so.cache`. The file is a table of the
new format, alone or after one of the old format, and the comment on the file
says that the new one begins at the next aligned offset. The reader takes it to
begin right after the last entry of the old one.
-/

namespace Iamroot

open ByteOrder

def ascii (s : List Char) : Bytes := s.map fun c => BitVec.ofNat 8 c.toNat

def cacheMagic : Bytes := ascii "ld.so-1.7.0".toList

def cacheMagicVersionNew : Bytes := ascii "glibc-ld.so.cache1.1".toList

/-! ## The structures of `dl-cache.h` -/

def cacheNlibs : Nat := 12

def cacheLibs (n : Nat) : Nat := 16 + 12 * n

def cacheNewNlibs : Nat := 20

def cacheNewLibs (n : Nat) : Nat := 48 + 24 * n

def entryValue : Nat := 8

def cacheAlign : Nat := 8

/-! ## The reader -/

section
variable (host : Endian) (f : Bytes)

def word (off : Nat) : Nat := (load 32 host (slice f off 4)).toNat

def stringAt (off : Nat) : Str := toStr ((f.drop off).takeWhile (· ≠ 0))

def cachePath (base i : Nat) : Str := stringAt f (base + word host f (base + cacheNewLibs i + entryValue))

def addrNew : Nat :=
  if slice f 0 cacheMagic.length = cacheMagic then cacheLibs (word host f cacheNlibs) else 0

variable (root soname : Str) (bufsiz : Nat)

def cacheLoop (base : Nat) : Nat → Nat → Except Errno Str
  | 0, _ => .error .ENOENT
  | num + 1, i =>
    let path := cachePath host f base i
    if streq soname (basename path) then
      let root := if streq root ['/'] then [] else root
      snprintf (root ++ path) bufsiz
    else cacheLoop base num (i + 1)

/-- `__ldso_cache`, of a file that `open`, `fstat` and `mmap` succeed on. -/
def ldsoCache : Except Errno Str :=
  let base := addrNew host f
  if slice f base cacheMagicVersionNew.length ≠ cacheMagicVersionNew then .error .EINVAL
  else cacheLoop host f root soname bufsiz base (word host f (base + cacheNewNlibs)) 0

end

/-! ## The layout -/

def alignUp (n a : Nat) : Nat := (n + a - 1) / a * a

/-- Where the comment places the header of the new format. -/
def newBase : Option Nat → Nat
  | none => 0
  | some nlibs => alignUp (cacheLibs nlibs) cacheAlign

/-- A cache file of the values, after a table of `old` entries if there is one. -/
structure CacheLayout (host : Endian) (f : Bytes) (old : Option Nat) (values : List Str) : Prop where
  old_magic : ∀ nlibs, old = some nlibs → slice f 0 cacheMagic.length = cacheMagic
  old_nlibs : ∀ nlibs, old = some nlibs → word host f cacheNlibs = nlibs
  new_magic : slice f (newBase old) cacheMagicVersionNew.length = cacheMagicVersionNew
  new_nlibs : word host f (newBase old + cacheNewNlibs) = values.length
  new_libs : ∀ i (h : i < values.length), newBase old + cacheNewLibs i + entryValue + 4 ≤ f.length ∧
    (strOf (f.drop (newBase old + word host f (newBase old + cacheNewLibs i + entryValue)))).map toStr = some values[i]

def lookup (root soname : Str) (values : List Str) : Except Errno Str :=
  match values.find? fun path => basename path = soname with
  | some path => .ok ((if root = ['/'] then [] else root) ++ path)
  | none => .error .ENOENT

def Holds (bufsiz : Nat) (r : Except Errno Str) : Prop := ∀ s, r = .ok s → s.length < bufsiz

theorem lookup_cons_self {root soname : Str} {path : Str} (values : List Str) (h : basename path = soname) :
    lookup root soname (path :: values) = .ok ((if root = ['/'] then [] else root) ++ path) := by
  unfold lookup
  rw [List.find?_cons_of_pos (by simpa using h)]

theorem lookup_cons_ne {root soname : Str} {path : Str} (values : List Str) (h : basename path ≠ soname) :
    lookup root soname (path :: values) = lookup root soname values := by
  unfold lookup
  rw [List.find?_cons_of_neg (by simpa using h)]

theorem slice_get {f : Bytes} (off : Nat) {n i : Nat} (h : i < n) : (slice f off n)[i]? = f[off + i]? := by
  unfold slice
  rw [List.getElem?_take_of_lt h, List.getElem?_drop]

section
variable {host : Endian} {f : Bytes} {old : Option Nat} {values : List Str}

namespace CacheLayout

theorem old_none (h : CacheLayout host f none values) : addrNew host f = 0 := by
  unfold addrNew
  rw [if_neg]
  intro hold
  have hnew := congrArg (fun b => b[0]?) h.new_magic
  have hmagic := congrArg (fun b => b[0]?) hold
  simp only [newBase] at hnew
  rw [slice_get 0 (by decide)] at hnew hmagic
  exact absurd (hnew.symm.trans hmagic) (by decide)

theorem old_some {nlibs : Nat} (h : CacheLayout host f (some nlibs) values) : addrNew host f = cacheLibs nlibs := by
  unfold addrNew
  rw [if_pos (h.old_magic nlibs rfl), h.old_nlibs nlibs rfl]

/-- The new table is where the reader looks for it when the old entries need no padding. -/
theorem aligned_iff (nlibs : Nat) : cacheLibs nlibs = alignUp (cacheLibs nlibs) cacheAlign ↔ Even nlibs := by
  unfold cacheLibs alignUp cacheAlign
  rw [Nat.even_iff]
  omega

theorem padded {nlibs : Nat} (h : ¬Even nlibs) : cacheLibs nlibs + 4 = alignUp (cacheLibs nlibs) cacheAlign := by
  rw [Nat.even_iff] at h
  unfold cacheLibs alignUp cacheAlign
  omega

theorem no_magic {base : Nat} (h : slice f (base + 4) cacheMagicVersionNew.length = cacheMagicVersionNew) :
    slice f base cacheMagicVersionNew.length ≠ cacheMagicVersionNew := by
  intro hb
  have hat := congrArg (fun b => b[0]?) h
  have hbefore := congrArg (fun b => b[4]?) hb
  rw [slice_get _ (by decide)] at hat hbefore
  exact absurd (hat.symm.trans hbefore) (by decide)

theorem cachePath_eq (h : CacheLayout host f old values) {i : Nat} (hi : i < values.length) :
    cachePath host f (newBase old) i = values[i] := by
  have hs := (h.new_libs i hi).2
  unfold strOf at hs
  unfold cachePath stringAt
  split at hs
  · simpa using hs
  · cases hs

theorem cacheLoop_eq (h : CacheLayout host f old values) (root soname : Str) (bufsiz : Nat) {num i : Nat}
    (hi : i + num = values.length) (hbuf : Holds bufsiz (lookup root soname (values.drop i))) :
    cacheLoop host f root soname bufsiz (newBase old) num i = lookup root soname (values.drop i) := by
  induction num generalizing i with
  | zero =>
    rw [List.drop_eq_nil_of_le (by omega)]
    rfl
  | succ num ih =>
    have hlt : i < values.length := by omega
    rw [List.drop_eq_getElem_cons hlt] at hbuf ⊢
    unfold cacheLoop
    rw [h.cachePath_eq hlt]
    by_cases hname : basename values[i] = soname
    · have hfit := hbuf _ (lookup_cons_self _ hname)
      have hroot : (if streq root ['/'] then [] else root) = if root = ['/'] then [] else root := by simp [streq]
      rw [lookup_cons_self _ hname, if_pos (by simp [streq, hname])]
      simp only [hroot, snprintf]
      rw [if_pos hfit]
    · have hne : streq soname (basename values[i]) = false := by
        simpa [streq] using fun e => hname e.symm
      rw [lookup_cons_ne _ hname] at hbuf ⊢
      simp only [hne, Bool.false_eq_true, if_false]
      exact ih (by omega) hbuf

theorem ldsoCache_eq (h : CacheLayout host f old values) (hbase : addrNew host f = newBase old) (root soname : Str)
    {bufsiz : Nat} (hbuf : Holds bufsiz (lookup root soname values)) :
    ldsoCache host f root soname bufsiz = lookup root soname values := by
  have hloop := h.cacheLoop_eq root soname bufsiz (Nat.zero_add values.length) hbuf
  unfold ldsoCache
  simp only [hbase, h.new_nlibs, h.new_magic, ne_eq, not_true_eq_false, if_false]
  exact hloop

end CacheLayout

theorem lookup_not_inval (root soname : Str) (values : List Str) : lookup root soname values ≠ .error .EINVAL := by
  unfold lookup
  split <;> simp

theorem exists_holds (r : Except Errno Str) : ∃ bufsiz, Holds bufsiz r := by
  cases r with
  | ok s => exact ⟨s.length + 1, fun t ht => by cases ht; exact Nat.lt_succ_self _⟩
  | error e => exact ⟨0, fun t ht => by cases ht⟩

/-- The reader finds what the file says exactly when the new table needs no padding: when it
stands alone, or after an even number of entries. -/
theorem ldsoCache_layout (h : CacheLayout host f old values) (root soname : Str) :
    (∀ bufsiz, Holds bufsiz (lookup root soname values) →
      ldsoCache host f root soname bufsiz = lookup root soname values) ↔ ∀ nlibs, old = some nlibs → Even nlibs := by
  cases old with
  | none =>
    have hbase : addrNew host f = newBase none := h.old_none
    constructor
    · intro _ nlibs hn
      cases hn
    · intro _ bufsiz hbuf
      exact h.ldsoCache_eq hbase root soname hbuf
  | some nlibs =>
    by_cases heven : Even nlibs
    · have hbase : addrNew host f = newBase (some nlibs) :=
        h.old_some.trans ((CacheLayout.aligned_iff nlibs).mpr heven)
      constructor
      · intro _ n hn
        cases hn
        exact heven
      · intro _ bufsiz hbuf
        exact h.ldsoCache_eq hbase root soname hbuf
    · have hpad : newBase (some nlibs) = cacheLibs nlibs + 4 := (CacheLayout.padded heven).symm
      have hmagic := h.new_magic
      rw [hpad] at hmagic
      constructor
      · intro hall
        obtain ⟨bufsiz, hbuf⟩ := exists_holds (lookup root soname values)
        have hinval : ldsoCache host f root soname bufsiz = .error .EINVAL := by
          unfold ldsoCache
          rw [h.old_some]
          exact if_pos (CacheLayout.no_magic hmagic)
        exact absurd ((hall bufsiz hbuf).symm.trans hinval) (lookup_not_inval root soname values)
      · intro hall
        exact absurd (hall nlibs rfl) heven

end

def sampleCache (n pad : Nat) : Bytes :=
  cacheMagic ++ [0] ++ [BitVec.ofNat 8 n, 0, 0, 0] ++ List.replicate (12 * n + pad) 0 ++
    cacheMagicVersionNew ++ [1, 0, 0, 0] ++ List.replicate 24 0 ++
    [1, 0, 0, 0, 0, 0, 0, 0, 72, 0, 0, 0] ++ List.replicate 12 0 ++ ascii "/lib/libc.so".toList ++ [0]

theorem sampleCache_two : CacheLayout .little (sampleCache 2 0) (some 2) ["/lib/libc.so".toList] where
  old_magic _ _ := by decide
  old_nlibs n hn := by
    cases hn
    decide
  new_magic := by decide
  new_nlibs := by decide
  new_libs i hi := by
    cases Nat.lt_one_iff.mp hi
    decide +kernel +revert

theorem ldsoCache_layout_two :
    ldsoCache .little (sampleCache 2 0) "/root".toList "libc.so".toList 4096 = .ok "/root/lib/libc.so".toList := by
  have h := (ldsoCache_layout sampleCache_two "/root".toList "libc.so".toList).mpr fun n hn => by
    cases hn
    decide
  exact h 4096 fun s hs => by
    cases hs
    decide

theorem sampleCache_one : CacheLayout .little (sampleCache 1 4) (some 1) ["/lib/libc.so".toList] where
  old_magic _ _ := by decide
  old_nlibs n hn := by
    cases hn
    decide
  new_magic := by decide
  new_nlibs := by decide
  new_libs i hi := by
    cases Nat.lt_one_iff.mp hi
    decide +kernel +revert

theorem ldsoCache_padding :
    ¬∀ (host : Endian) (f : Bytes) (old : Option Nat) (values : List Str), CacheLayout host f old values →
      ∀ root soname bufsiz, Holds bufsiz (lookup root soname values) →
        ldsoCache host f root soname bufsiz = lookup root soname values := by
  intro h
  have hone := h .little (sampleCache 1 4) (some 1) _ sampleCache_one "/root".toList "libc.so".toList 4096 fun s hs => by
    cases hs
    decide
  exact absurd hone (by decide +kernel)

end Iamroot
