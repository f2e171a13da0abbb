import Iamroot.LdsoCache

/-!
# The reads of the cache

The file is mapped as it is, and every count and every offset in it is taken for
good: no read is checked against the length of the file. The reader is here again
with each of its reads, so that one at the length or beyond it shows.
-/

namespace Iamroot

open ByteOrder

/-! ## The reader, with its reads -/

section
variable (host : Endian) (f : Bytes)

/-- `n` bytes at an offset; `none` is a read at or beyond the length of the file. -/
def readBytes (off n : Nat) : Option Bytes := if off + n ≤ f.length then some (slice f off n) else none

def readWord (off : Nat) : Option Nat := (readBytes f off 4).map fun b => (load 32 host b).toNat

def readString (off : Nat) : Option Str := (strOf (f.drop off)).map toStr

def readBase : Option Nat := do
  let magic ← readBytes f 0 cacheMagic.length
  if magic = cacheMagic then (readWord host f cacheNlibs).map cacheLibs else some 0

variable (root soname : Str) (bufsiz : Nat)

def readLoop (base : Nat) : Nat → Nat → Option (Except Errno Str)
  | 0, _ => some (.error .ENOENT)
  | num + 1, i => do
    let value ← readWord host f (base + cacheNewLibs i + entryValue)
    let path ← readString f (base + value)
    if streq soname (basename path) then
      let root := if streq root ['/'] then [] else root
      some (snprintf (root ++ path) bufsiz)
    else readLoop base num (i + 1)

/-- `__ldso_cache`, of a file that `open` and `fstat` succeed on; `mmap` refuses an empty one. -/
def readCache : Option (Except Errno Str) :=
  if f = [] then some (.error .EINVAL)
  else do
    let base ← readBase host f
    let magic ← readBytes f base cacheMagicVersionNew.length
    if magic ≠ cacheMagicVersionNew then some (.error .EINVAL)
    else do
      let num ← readWord host f (base + cacheNewNlibs)
      readLoop host f root soname bufsiz base num 0

end

/-! ## What lies inside of the file -/

section
variable (host : Endian) (f : Bytes)

def Ended (off : Nat) : Prop := 0 ∈ f.drop off

def NewMagic : Prop := slice f (addrNew host f) cacheMagicVersionNew.length = cacheMagicVersionNew

instance : Decidable (NewMagic host f) := inferInstanceAs (Decidable (_ = _))

def EntryInside (i : Nat) : Prop :=
  addrNew host f + cacheNewLibs i + entryValue + 4 ≤ f.length ∧
    Ended f (addrNew host f + word host f (addrNew host f + cacheNewLibs i + entryValue))

def newNlibs : Nat := word host f (addrNew host f + cacheNewNlibs)

def CacheHit (soname : Str) (i : Nat) : Prop :=
  basename (cachePath host f (addrNew host f) i) = soname ∧
    ∀ j < i, basename (cachePath host f (addrNew host f) j) ≠ soname

/-- The headers are inside of the file, and so is every entry that no hit comes before. -/
structure ReadsInside (soname : Str) : Prop where
  magic : cacheMagic.length ≤ f.length
  old_nlibs : slice f 0 cacheMagic.length = cacheMagic → cacheNlibs + 4 ≤ f.length
  new_magic : addrNew host f + cacheMagicVersionNew.length ≤ f.length
  new_nlibs : NewMagic host f → addrNew host f + cacheNewNlibs + 4 ≤ f.length
  entries : NewMagic host f → ∀ i < newNlibs host f,
    (∀ j < i, basename (cachePath host f (addrNew host f) j) ≠ soname) → EntryInside host f i

/-- The two offsets at `key` and `value` are of strings inside of the file. -/
def OffsetsInside (base key value : Nat) : Prop := Ended f (base + word host f key) ∧ Ended f (base + word host f value)

/-- A count, or an offset of an entry of one of the two tables, points outside of the file. -/
def PointsOutside : Prop :=
  (slice f 0 cacheMagic.length = cacheMagic ∧
    (f.length < addrNew host f ∨
      ∃ i < word host f cacheNlibs, ¬ OffsetsInside host f (addrNew host f) (cacheLibs i + 4) (cacheLibs i + 8))) ∨
  (NewMagic host f ∧
    (f.length < addrNew host f + cacheNewLibs (newNlibs host f) ∨
      ∃ i < newNlibs host f, ¬ OffsetsInside host f (addrNew host f) (addrNew host f + cacheNewLibs i + 4)
        (addrNew host f + cacheNewLibs i + entryValue)))

end

/-! ## One read -/

section
variable {host : Endian} {f : Bytes} {off n i num : Nat} {root soname : Str} {bufsiz : Nat}

theorem readBytes_inside (h : off + n ≤ f.length) : readBytes f off n = some (slice f off n) := if_pos h

theorem readBytes_outside (h : ¬ off + n ≤ f.length) : readBytes f off n = none := if_neg h

theorem readWord_inside (h : off + 4 ≤ f.length) : readWord host f off = some (word host f off) := by
  rw [readWord, readBytes_inside h]
  rfl

theorem readWord_outside (h : ¬ off + 4 ≤ f.length) : readWord host f off = none := by
  rw [readWord, readBytes_outside h]
  rfl

theorem readString_inside (h : Ended f off) : readString f off = some (stringAt f off) := by
  rw [readString, strOf, if_pos (show 0 ∈ f.drop off from h)]
  rfl

theorem readString_outside (h : ¬ Ended f off) : readString f off = none := by
  rw [readString, strOf, if_neg (show ¬ 0 ∈ f.drop off from h)]
  rfl

theorem readLoop_inside (h : EntryInside host f i) (root soname : Str) (bufsiz num : Nat) :
    readLoop host f root soname bufsiz (addrNew host f) (num + 1) i =
      if basename (cachePath host f (addrNew host f) i) = soname then
        some (snprintf ((if streq root ['/'] then [] else root) ++ cachePath host f (addrNew host f) i) bufsiz)
      else readLoop host f root soname bufsiz (addrNew host f) num (i + 1) := by
  rw [readLoop, readWord_inside h.1]
  show (readString f _).bind _ = _
  rw [readString_inside h.2]
  show (if streq soname (basename (cachePath host f (addrNew host f) i)) then _ else _) = _
  by_cases hname : basename (cachePath host f (addrNew host f) i) = soname
  · rw [if_pos hname, if_pos (by simp [streq, hname])]
    rfl
  · rw [if_neg hname, if_neg (by simpa [streq] using fun e => hname e.symm)]

theorem readLoop_outside (h : ¬ EntryInside host f i) :
    readLoop host f root soname bufsiz (addrNew host f) (num + 1) i = none := by
  rw [readLoop]
  by_cases h1 : addrNew host f + cacheNewLibs i + entryValue + 4 ≤ f.length
  · rw [readWord_inside h1]
    show (readString f _).bind _ = _
    rw [readString_outside fun h2 => h ⟨h1, h2⟩]
    rfl
  · rw [readWord_outside h1]
    rfl

/-! ## The loop -/

def NoneBefore (host : Endian) (f : Bytes) (soname : Str) (i : Nat) : Prop :=
  ∀ j < i, basename (cachePath host f (addrNew host f) j) ≠ soname

theorem NoneBefore.succ (h : NoneBefore host f soname i) (hi : basename (cachePath host f (addrNew host f) i) ≠ soname) :
    NoneBefore host f soname (i + 1) := by
  intro j hj
  by_cases hji : j = i
  · rw [hji]
    exact hi
  · exact h j (by omega)

/-- The loop reads inside of the file exactly when the entries that it comes to are inside. -/
theorem readLoop_reads_iff (hi : NoneBefore host f soname i) :
    (∃ r, readLoop host f root soname bufsiz (addrNew host f) num i = some r) ↔
      ∀ k, i ≤ k → k < i + num → NoneBefore host f soname k → EntryInside host f k := by
  induction num generalizing i with
  | zero =>
    refine iff_of_true ⟨_, rfl⟩ fun k hik hk => ?_
    omega
  | succ num ih =>
    by_cases hin : EntryInside host f i
    · rw [readLoop_inside hin]
      by_cases hname : basename (cachePath host f (addrNew host f) i) = soname
      · rw [if_pos hname]
        refine iff_of_true ⟨_, rfl⟩ fun k hik hk hnone => ?_
        by_cases hki : k = i
        · rwa [hki]
        · exact absurd hname (hnone i (by omega))
      · rw [if_neg hname, ih (hi.succ hname)]
        constructor
        · intro h k hik hk hnone
          by_cases hki : k = i
          · rwa [hki]
          · exact h k (by omega) (by omega) hnone
        · intro h k hik hk hnone
          exact h k (by omega) (by omega) hnone
    · rw [readLoop_outside hin]
      refine iff_of_false (by simp) fun h => hin ?_
      exact h i (Nat.le_refl _) (by omega) hi

def rooted (root path : Str) : Str := (if streq root ['/'] then [] else root) ++ path

/-- The loop fails exactly when the first hit, if there is one, does not fit in the buffer. -/
theorem readLoop_error_iff (hi : NoneBefore host f soname i) {r : Except Errno Str}
    (hr : readLoop host f root soname bufsiz (addrNew host f) num i = some r) :
    (∃ e, r = .error e) ↔ ∀ k, i ≤ k → k < i + num → CacheHit host f soname k →
      bufsiz ≤ (rooted root (cachePath host f (addrNew host f) k)).length := by
  induction num generalizing i with
  | zero =>
    have hr' : r = .error .ENOENT := (Option.some.inj hr).symm
    refine iff_of_true ⟨_, hr'⟩ fun k hik hk => ?_
    omega
  | succ num ih =>
    have hin : EntryInside host f i :=
      (readLoop_reads_iff hi).mp ⟨r, hr⟩ i (Nat.le_refl _) (by omega) hi
    rw [readLoop_inside hin] at hr
    by_cases hname : basename (cachePath host f (addrNew host f) i) = soname
    · rw [if_pos hname] at hr
      have hr' : snprintf (rooted root (cachePath host f (addrNew host f) i)) bufsiz = r := Option.some.inj hr
      rw [snprintf] at hr'
      constructor
      · rintro ⟨e, rfl⟩ k hik hk hhit
        have hki : k = i := by
          by_contra hne
          exact hhit.2 i (by omega) hname
        rw [hki]
        split at hr'
        · cases hr'
        · omega
      · intro h
        have hlen := h i (Nat.le_refl _) (by omega) ⟨hname, hi⟩
        rw [if_neg (by omega)] at hr'
        exact ⟨_, hr'.symm⟩
    · rw [if_neg hname] at hr
      rw [ih (hi.succ hname) hr]
      constructor
      · intro h k hik hk hhit
        by_cases hki : k = i
        · exact absurd (hki ▸ hhit.1) hname
        · exact h k (by omega) (by omega) hhit
      · intro h k hik hk hhit
        exact h k (by omega) (by omega) hhit

/-! ## The whole reader -/

theorem readBase_inside (h : cacheMagic.length ≤ f.length)
    (hold : slice f 0 cacheMagic.length = cacheMagic → cacheNlibs + 4 ≤ f.length) : readBase host f = some (addrNew host f) := by
  rw [readBase, readBytes_inside (by omega)]
  show (if slice f 0 cacheMagic.length = cacheMagic then _ else _) = _
  rw [addrNew]
  split
  · rename_i hm
    rw [readWord_inside (hold hm)]
    rfl
  · rfl

theorem readBase_reads {base : Nat} (h : readBase host f = some base) : base = addrNew host f ∧ cacheMagic.length ≤ f.length ∧
    (slice f 0 cacheMagic.length = cacheMagic → cacheNlibs + 4 ≤ f.length) := by
  by_cases hlen : 0 + cacheMagic.length ≤ f.length
  · have hlen' : cacheMagic.length ≤ f.length := by omega
    by_cases hold : slice f 0 cacheMagic.length = cacheMagic → cacheNlibs + 4 ≤ f.length
    · rw [readBase_inside hlen' hold] at h
      exact ⟨(Option.some.inj h).symm, hlen', hold⟩
    · obtain ⟨hm, hn⟩ := Classical.not_imp.mp hold
      rw [readBase, readBytes_inside hlen] at h
      change (if slice f 0 cacheMagic.length = cacheMagic then _ else _) = _ at h
      rw [if_pos hm, readWord_outside hn] at h
      cases h
  · rw [readBase, readBytes_outside hlen] at h
    cases h

theorem readCache_inside (hne : f ≠ []) (hbase : readBase host f = some (addrNew host f))
    (hmagic : addrNew host f + cacheMagicVersionNew.length ≤ f.length) : readCache host f root soname bufsiz =
      if ¬ NewMagic host f then some (.error .EINVAL)
      else (readWord host f (addrNew host f + cacheNewNlibs)).bind fun num =>
        readLoop host f root soname bufsiz (addrNew host f) num 0 := by
  rw [readCache, if_neg hne, hbase]
  show (readBytes f (addrNew host f) cacheMagicVersionNew.length).bind _ = _
  rw [readBytes_inside hmagic]
  rfl

/-- The reader stays inside of the file exactly when the headers, and the entries that it comes to, are inside. -/
theorem readCache_reads_iff (hne : f ≠ []) :
    (∃ r, readCache host f root soname bufsiz = some r) ↔ ReadsInside host f soname := by
  constructor
  · rintro ⟨r, hr⟩
    cases hb : readBase host f with
    | none =>
      rw [readCache, if_neg hne, hb] at hr
      cases hr
    | some base =>
      obtain ⟨rfl, hlen, hold⟩ := readBase_reads hb
      by_cases hmagic : addrNew host f + cacheMagicVersionNew.length ≤ f.length
      · rw [readCache_inside hne hb hmagic] at hr
        refine ⟨hlen, hold, hmagic, fun hnew => ?_, fun hnew i hi hnone => ?_⟩
        · rw [if_neg (not_not.mpr hnew)] at hr
          by_contra hnum
          rw [readWord_outside hnum] at hr
          cases hr
        · rw [if_neg (not_not.mpr hnew)] at hr
          by_cases hnum : addrNew host f + cacheNewNlibs + 4 ≤ f.length
          · rw [readWord_inside hnum] at hr
            have h0 : NoneBefore host f soname 0 := fun j hj => absurd hj (Nat.not_lt_zero j)
            exact (readLoop_reads_iff h0).mp ⟨r, hr⟩ i (Nat.zero_le i) (by rwa [Nat.zero_add]) hnone
          · rw [readWord_outside hnum] at hr
            cases hr
      · rw [readCache, if_neg hne, hb] at hr
        change (readBytes f (addrNew host f) cacheMagicVersionNew.length).bind _ = _ at hr
        rw [readBytes_outside hmagic] at hr
        cases hr
  · intro h
    rw [readCache_inside hne (readBase_inside h.magic h.old_nlibs) h.new_magic]
    by_cases hnew : NewMagic host f
    · rw [if_neg (not_not.mpr hnew), readWord_inside (h.new_nlibs hnew)]
      have h0 : NoneBefore host f soname 0 := fun j hj => absurd hj (Nat.not_lt_zero j)
      refine (readLoop_reads_iff h0).mpr fun k _ hk hnone => h.entries hnew k ?_ hnone
      rwa [Nat.zero_add] at hk
    · rw [if_pos hnew]
      exact ⟨_, rfl⟩

/-- A reader that stays inside fails exactly when there is no new table, or nothing in it that fits in the buffer. -/
theorem readCache_error_iff (hne : f ≠ []) (h : ReadsInside host f soname) {r : Except Errno Str}
    (hr : readCache host f root soname bufsiz = some r) : (∃ e, r = .error e) ↔
      (NewMagic host f → ∀ i < newNlibs host f, CacheHit host f soname i →
        bufsiz ≤ (rooted root (cachePath host f (addrNew host f) i)).length) := by
  rw [readCache_inside hne (readBase_inside h.magic h.old_nlibs) h.new_magic] at hr
  by_cases hnew : NewMagic host f
  · rw [if_neg (not_not.mpr hnew), readWord_inside (h.new_nlibs hnew)] at hr
    have h0 : NoneBefore host f soname 0 := fun j hj => absurd hj (Nat.not_lt_zero j)
    rw [readLoop_error_iff h0 hr]
    constructor
    · intro hall _ i hi hhit
      exact hall i (Nat.zero_le i) (by rwa [Nat.zero_add]) hhit
    · intro hall i _ hi hhit
      rw [Nat.zero_add] at hi
      exact hall hnew i hi hhit
  · rw [if_pos hnew] at hr
    exact iff_of_true ⟨_, (Option.some.inj hr).symm⟩ fun h => absurd h hnew

/-- No read is at the length of the file or beyond it, and a file that points outside is refused. -/
def Bounded (host : Endian) (f : Bytes) (root soname : Str) (bufsiz : Nat) : Prop :=
  ∃ r, readCache host f root soname bufsiz = some r ∧ (PointsOutside host f → ∃ e, r = .error e)

/-- The reader is bounded exactly on an empty file, and on one that has its headers and the entries up to the first hit
inside of it, as long as a file that points outside has no hit that fits in the buffer. -/
theorem readCache_bounded (host : Endian) (f : Bytes) (root soname : Str) (bufsiz : Nat) :
    Bounded host f root soname bufsiz ↔ f = [] ∨ ReadsInside host f soname ∧
      (PointsOutside host f → NewMagic host f → ∀ i < newNlibs host f, CacheHit host f soname i →
        bufsiz ≤ (rooted root (cachePath host f (addrNew host f) i)).length) := by
  unfold Bounded
  by_cases hne : f = []
  · exact iff_of_true ⟨_, if_pos hne, fun _ => ⟨_, rfl⟩⟩ (.inl hne)
  · constructor
    · rintro ⟨r, hr, hout⟩
      have hin := (readCache_reads_iff hne).mp ⟨r, hr⟩
      exact .inr ⟨hin, fun ho => (readCache_error_iff hne hin hr).mp (hout ho)⟩
    · rintro (h | ⟨hin, hout⟩)
      · exact absurd h hne
      · obtain ⟨r, hr⟩ := (@readCache_reads_iff host f root soname bufsiz hne).mpr hin
        exact ⟨r, hr, fun ho => (readCache_error_iff hne hin hr).mpr (hout ho)⟩

theorem readLoop_cacheLoop {r : Except Errno Str}
    (hr : readLoop host f root soname bufsiz (addrNew host f) num i = some r) :
    cacheLoop host f root soname bufsiz (addrNew host f) num i = r := by
  induction num generalizing i with
  | zero => exact Option.some.inj hr
  | succ num ih =>
    have hin : EntryInside host f i := by
      by_contra hout
      rw [readLoop_outside hout] at hr
      cases hr
    rw [readLoop_inside hin] at hr
    rw [cacheLoop]
    by_cases hname : basename (cachePath host f (addrNew host f) i) = soname
    · rw [if_pos hname] at hr
      rw [if_pos (by simp [streq, hname])]
      exact Option.some.inj hr
    · rw [if_neg hname] at hr
      rw [if_neg (by simpa [streq] using fun e => hname e.symm)]
      exact ih hr

/-- Where no read is outside, the reader is the one that was modelled without its reads. -/
theorem readCache_ldsoCache (hne : f ≠ []) {r : Except Errno Str} (hr : readCache host f root soname bufsiz = some r) :
    ldsoCache host f root soname bufsiz = r := by
  have h := (readCache_reads_iff hne).mp ⟨r, hr⟩
  rw [readCache_inside hne (readBase_inside h.magic h.old_nlibs) h.new_magic] at hr
  rw [ldsoCache]
  show (if ¬ NewMagic host f then _ else _) = _
  by_cases hnew : NewMagic host f
  · rw [if_neg (not_not.mpr hnew), readWord_inside (h.new_nlibs hnew)] at hr
    rw [if_neg (not_not.mpr hnew)]
    exact readLoop_cacheLoop hr
  · rw [if_pos hnew] at hr
    rw [if_pos hnew]
    exact Option.some.inj hr

end

def strayCache : Bytes :=
  cacheMagicVersionNew ++ [1, 0, 0, 0] ++ List.replicate 24 0 ++ [1, 0, 0, 0, 0, 0, 0, 0, 255, 255, 255, 255] ++
    List.replicate 12 0

theorem readCache_strays : ¬ Bounded .little strayCache [] "libc.so".toList 4096 := by
  rintro ⟨r, hr, -⟩
  have hnone : readCache .little strayCache [] "libc.so".toList 4096 = none := by decide
  rw [hnone] at hr
  cases hr

end Iamroot
