import Iamroot.ElfOrder

/-!
# The mapped ELF reader

The part of `dso.c` that reads an ELF file through `mmap`. The headers are
copied from the mapping after a check of their end against its size, and the
segments of one type are handed to a callback as a pointer and a length.
-/

namespace Iamroot

open ByteOrder

/-! ## The mapping -/

/-- The size of a file is an `off_t`; `around` is the memory that is not of the mapping. -/
structure Mapping where
  file : Bytes
  around : Nat → Byte
  fits : file.length < 2 ^ 63

namespace Mapping

def addrsiz (m : Mapping) : Nat := m.file.length

/-- The byte at `addr + i`: pointers wrap around, and so does a distance to them. -/
def byte (m : Mapping) (i : Nat) : Byte := m.file[i % 2 ^ 64]?.getD (m.around (i % 2 ^ 64))

def memcpy (m : Mapping) (n off : Nat) : Bytes := (List.range n).map fun i => m.byte (off + i)

@[simp] theorem memcpy_length (m : Mapping) (n off : Nat) : (m.memcpy n off).length = n := by
  simp [memcpy]

theorem memcpy_eq (m : Mapping) {n off : Nat} (h : off + n ≤ m.addrsiz) : m.memcpy n off = slice m.file off n := by
  have hfits := m.fits
  unfold addrsiz at h
  apply List.ext_getElem
  · simp [slice]
    omega
  · intro i hi _
    have hin : i < n := by simpa using hi
    have hlt : off + i < m.file.length := by omega
    have hmod : (off + i) % 2 ^ 64 = off + i := Nat.mod_eq_of_lt (by omega)
    have hbyte : m.byte (off + i) = m.file[off + i] := by
      unfold byte
      rw [hmod, List.getElem?_eq_getElem hlt, Option.getD_some]
    simp [memcpy, slice, hbyte]

end Mapping

/-- A piece of the mapping that a run comes to, and whether it goes on to use it. -/
structure Range where
  off : Nat
  len : Nat
  used : Bool
  deriving DecidableEq

inductive Answer where
  | fail (e : Errno)
  | done
  | more
  deriving DecidableEq

/-! ## The readers -/

section
variable (host : Endian) (m : Mapping)

/-- `__elf_header`, which differs from `__elf_ehdr` in its errors. -/
def elfHeader : Except Errno AnyEhdr :=
  if 64 > m.addrsiz then .error .ERANGE
  else
    let b := m.memcpy 64 0
    if slice b 0 4 ≠ elfMag then .error .ENOEXEC
    else if b[4]? = some Class.elf32.byte then .ok (.elf32 (elf32Ehdr host b))
    else if b[4]? = some Class.elf64.byte then .ok (.elf64 (elf64Ehdr host b))
    else .error .ENOTSUP

/-- The check of a program header, whose sum is of two `size_t`. -/
def InRange (off n : Nat) : Prop := ¬(off + n) % 2 ^ 64 > m.addrsiz

instance (off n : Nat) : Decidable (InRange m off n) := inferInstanceAs (Decidable (¬_))

def elf32ProgramHeader (ident : Bytes) (off : Nat) : Except Errno (Phdr .elf32) :=
  if ¬InRange m off 32 then .error .ERANGE
  else
    let phdr := Phdr.load host (m.memcpy 32 off) .elf32
    if !elfSwap host ident then .ok phdr
    else .ok { type := bswap32 phdr.type
               offset := bswap32 phdr.offset
               vaddr := bswap32 phdr.vaddr
               paddr := bswap32 phdr.paddr
               filesz := bswap32 phdr.filesz
               memsz := bswap32 phdr.memsz
               flags := bswap32 phdr.flags
               align := bswap32 phdr.align }

def elf64ProgramHeader (ident : Bytes) (off : Nat) : Except Errno (Phdr .elf64) :=
  if ¬InRange m off 56 then .error .ERANGE
  else
    let phdr := Phdr.load host (m.memcpy 56 off) .elf64
    if !elfSwap host ident then .ok phdr
    else .ok { type := bswap32 phdr.type
               flags := bswap32 phdr.flags
               offset := bswap64 phdr.offset
               vaddr := bswap64 phdr.vaddr
               paddr := bswap64 phdr.paddr
               filesz := bswap64 phdr.filesz
               memsz := bswap64 phdr.memsz
               align := bswap64 phdr.align }

def elfProgramHeader (ident : Bytes) (off : Nat) : (c : Class) → Except Errno (Phdr c)
  | .elf32 => elf32ProgramHeader host m ident off
  | .elf64 => elf64ProgramHeader host m ident off

/-- The callback is given what it was handed so far, the last piece at the end. -/
abbrev PtCallback := List (Nat × Nat) → Answer

variable (ptype : BitVec 32) (callback : PtCallback)

abbrev PtRun := List Range × Except Errno Unit

def PtRun.after (r : Range) (t : PtRun) : PtRun := (r :: t.1, t.2)

/-- `__elf32_iterate_for_pt` and `__elf64_iterate_for_pt`, which differ in the types only. -/
def elfIterateForPt {c : Class} (ehdr : Ehdr c) : Nat → Nat → List (Nat × Nat) → PtRun
  | 0, _, _ => ([], .error .ENOENT)
  | num + 1, off, given =>
    match elfProgramHeader host m ehdr.ident off c with
    | .error e => ([⟨off, c.phdrSize, false⟩], .error e)
    | .ok phdr =>
      let off' := (off + c.phdrSize) % 2 ^ 64
      let start := phdr.offset.toNat
      let len := phdr.filesz.toNat
      PtRun.after ⟨off, c.phdrSize, true⟩ <|
        if phdr.type ≠ ptype then elfIterateForPt ehdr num off' given
        else if start > m.addrsiz then ([⟨start, len, false⟩], .error .ERANGE)
        else PtRun.after ⟨start, len, true⟩ <|
          match callback (given ++ [(start, len)]) with
          | .fail e => ([], .error e)
          | .done => ([], .ok ())
          | .more => elfIterateForPt ehdr num off' (given ++ [(start, len)])

def etExec : BitVec 16 := 2

def etDyn : BitVec 16 := 3

namespace AnyEhdr

def type : AnyEhdr → BitVec 16
  | elf32 ehdr => ehdr.type
  | elf64 ehdr => ehdr.type

def read : AnyEhdr → (c : Class) × Ehdr c
  | elf32 ehdr => ⟨.elf32, ehdr⟩
  | elf64 ehdr => ⟨.elf64, ehdr⟩

def linked (ehdr : AnyEhdr) : Prop := ehdr.type = etExec ∨ ehdr.type = etDyn

instance (ehdr : AnyEhdr) : Decidable ehdr.linked := inferInstanceAs (Decidable (_ ∨ _))

end AnyEhdr

/-- `__elf_iterate_shared_object_for_pt`, of a file that `fstat` and `mmap` succeed on. -/
def elfIterateSharedObjectForPt : PtRun :=
  if m.addrsiz = 0 then ([], .error .ERANGE)
  else
    let first : Range := ⟨0, 64, !decide (64 > m.addrsiz)⟩
    match elfHeader host m with
    | .error e => ([first], .error e)
    | .ok ehdr =>
      PtRun.after first <|
        if ¬ehdr.linked then ([], .error .ENOEXEC)
        else
          let h := ehdr.read
          elfIterateForPt host m ptype callback h.2 h.2.phnum.toNat h.2.phoff.toNat []

end

/-! ## The bounds -/

/-- Nothing that lies outside of the mapping is used, and the run fails that comes to it. -/
def PtRun.Bounded (addrsiz : Nat) (t : PtRun) : Prop :=
  ∀ r ∈ t.1, r.off + r.len ≤ addrsiz ∨ (r.used = false ∧ ∃ e, t.2 = .error e)

namespace PtRun

theorem bounded_nil (n : Nat) (r : Except Errno Unit) : Bounded n ([], r) := by
  simp [Bounded]

theorem bounded_fail (n off len : Nat) (e : Errno) : Bounded n ([⟨off, len, false⟩], .error e) := by
  simp [Bounded]

theorem bounded_after (n off len : Nat) (t : PtRun) :
    Bounded n (after ⟨off, len, true⟩ t) ↔ off + len ≤ n ∧ Bounded n t := by
  simp [Bounded, after]

end PtRun

/-- The order that `EI_DATA` names, for a host that takes every other value for its opposite. -/
def fileOrder (host : Endian) (ident : Bytes) : Endian := if elfSwap host ident then host.flip else host

section
variable (host : Endian) (m : Mapping)

def mapPhdr (ident : Bytes) (off : Nat) (c : Class) : Phdr c :=
  Phdr.load (fileOrder host ident) (m.memcpy c.phdrSize off) c

theorem elfProgramHeader_eq (ident : Bytes) (off : Nat) (c : Class) :
    elfProgramHeader host m ident off c =
      if InRange m off c.phdrSize then .ok (mapPhdr host m ident off c) else .error .ERANGE := by
  have h32 : (m.memcpy 32 off).length = 32 := m.memcpy_length 32 off
  have h64 : (m.memcpy 56 off).length = 56 := m.memcpy_length 56 off
  unfold mapPhdr fileOrder
  cases c with
  | elf32 =>
    by_cases h : InRange m off 32
    · cases hs : elfSwap host ident <;>
        simp (disch := omega) [elfProgramHeader, elf32ProgramHeader, Class.phdrSize, h, hs, Phdr.load, bswap32_slice]
    · simp [elfProgramHeader, elf32ProgramHeader, Class.phdrSize, h]
  | elf64 =>
    by_cases h : InRange m off 56
    · cases hs : elfSwap host ident <;>
        simp (disch := omega) [elfProgramHeader, elf64ProgramHeader, Class.phdrSize, h, hs, Phdr.load, bswap32_slice,
          bswap64_slice]
    · simp [elfProgramHeader, elf64ProgramHeader, Class.phdrSize, h]

variable (ptype : BitVec 32) (callback : PtCallback) {c : Class} (ident : Bytes)

def mapOff (c : Class) (off i : Nat) : Nat := (off + i * c.phdrSize) % 2 ^ 64

def mapSegments (c : Class) (off i : Nat) : List (Nat × Nat) :=
  (List.range i).filterMap fun j =>
    let phdr := mapPhdr host m ident (mapOff c off j) c
    if phdr.type = ptype then some (phdr.offset.toNat, phdr.filesz.toNat) else none

/-- The header does not end the search: it passes the check, and if it is of the type, its segment
starts in the mapping and the callback, given it as the last, asks for more. -/
def PtPassed (c : Class) (off : Nat) (given : List (Nat × Nat)) : Prop :=
  let phdr := mapPhdr host m ident off c
  InRange m off c.phdrSize ∧ (phdr.type = ptype → phdr.offset.toNat ≤ m.addrsiz ∧ callback given = .more)

/-- A header that passes the check is in the mapping, and so is the segment that it says starts there. -/
def Inside (c : Class) (off : Nat) : Prop :=
  let phdr := mapPhdr host m ident off c
  InRange m off c.phdrSize → off + c.phdrSize < 2 ^ 64 ∧
    (phdr.type = ptype → phdr.offset.toNat ≤ m.addrsiz → phdr.offset.toNat + phdr.filesz.toNat ≤ m.addrsiz)

/-- The headers that are reached all lie inside, with the segments they describe. -/
def Reached (c : Class) (off num : Nat) (given : List (Nat × Nat)) : Prop :=
  ∀ i < num,
    (∀ j < i, PtPassed host m ptype callback ident c (mapOff c off j)
      (given ++ mapSegments host m ptype ident c off (j + 1))) →
    Inside host m ptype ident c (mapOff c off i)

theorem mapOff_zero (c : Class) {off : Nat} (h : off < 2 ^ 64) : mapOff c off 0 = off := by
  unfold mapOff
  rw [Nat.zero_mul, Nat.add_zero, Nat.mod_eq_of_lt h]

theorem mapOff_succ (c : Class) (off i : Nat) :
    mapOff c ((off + c.phdrSize) % 2 ^ 64) i = mapOff c off (i + 1) := by
  unfold mapOff
  rw [Nat.mod_add_mod, Nat.add_assoc, Nat.succ_mul, Nat.add_comm c.phdrSize]

theorem mapSegments_succ (c : Class) (off i : Nat) :
    mapSegments host m ptype ident c off (i + 1) =
      mapSegments host m ptype ident c off 1 ++ mapSegments host m ptype ident c ((off + c.phdrSize) % 2 ^ 64) i := by
  unfold mapSegments
  simp only [mapOff_succ]
  rw [List.range_succ_eq_map, ← List.singleton_append, List.filterMap_append, List.filterMap_map]
  rfl

theorem mapSegments_one (c : Class) {off : Nat} (h : off < 2 ^ 64) :
    mapSegments host m ptype ident c off 1 =
      if (mapPhdr host m ident off c).type = ptype then
        [((mapPhdr host m ident off c).offset.toNat, (mapPhdr host m ident off c).filesz.toNat)]
      else [] := by
  unfold mapSegments
  rw [List.range_one, List.filterMap_cons, List.filterMap_nil, mapOff_zero c h]
  by_cases hty : (mapPhdr host m ident off c).type = ptype
  · simp [hty]
  · simp [hty]

theorem inRange_within {m : Mapping} {off n : Nat} (h : InRange m off n) :
    off + n < 2 ^ 64 ↔ off + n ≤ m.addrsiz := by
  have hfits := m.fits
  unfold InRange at h
  unfold Mapping.addrsiz at *
  constructor
  · intro hlt
    rw [Nat.mod_eq_of_lt hlt] at h
    omega
  · omega

theorem reached_succ (c : Class) {off : Nat} (num : Nat) (given : List (Nat × Nat)) (h : off < 2 ^ 64) :
    Reached host m ptype callback ident c off (num + 1) given ↔
      Inside host m ptype ident c off ∧
        (PtPassed host m ptype callback ident c off (given ++ mapSegments host m ptype ident c off 1) →
          Reached host m ptype callback ident c ((off + c.phdrSize) % 2 ^ 64) num
            (given ++ mapSegments host m ptype ident c off 1)) := by
  unfold Reached
  rw [Nat.forall_lt_succ_left]
  simp only [Nat.forall_lt_succ_left, mapOff_succ, mapOff_zero c h, List.append_assoc, ← mapSegments_succ]
  constructor
  · intro hr
    refine ⟨hr.1 (by simp), ?_⟩
    intro h0 i hi hj
    exact hr.2 i hi ⟨h0, hj⟩
  · intro hr
    refine ⟨fun _ => hr.1, ?_⟩
    intro i hi hj
    exact hr.2 hj.1 i hi hj.2

/-- The run over the headers is bounded exactly when what it reaches lies inside. -/
theorem elfIterateForPt_bounded (ehdr : Ehdr c) (num : Nat) {off : Nat} (given : List (Nat × Nat)) (hoff : off < 2 ^ 64) :
    (elfIterateForPt host m ptype callback ehdr num off given).Bounded m.addrsiz ↔
      Reached host m ptype callback ehdr.ident c off num given := by
  induction num generalizing off given with
  | zero => simp [elfIterateForPt, PtRun.bounded_nil, Reached]
  | succ num ih =>
    have hnext : (off + c.phdrSize) % 2 ^ 64 < 2 ^ 64 := Nat.mod_lt _ (by decide)
    rw [reached_succ host m ptype callback ehdr.ident c num given hoff, mapSegments_one host m ptype ehdr.ident c hoff]
    unfold elfIterateForPt Inside PtPassed
    rw [elfProgramHeader_eq]
    by_cases hr : InRange m off c.phdrSize
    · rw [if_pos hr]
      simp only [PtRun.bounded_after, ← inRange_within hr]
      by_cases hty : (mapPhdr host m ehdr.ident off c).type = ptype
      · rw [if_neg (not_not.mpr hty), if_pos hty]
        by_cases hst : (mapPhdr host m ehdr.ident off c).offset.toNat > m.addrsiz
        · have hno : ¬(mapPhdr host m ehdr.ident off c).offset.toNat ≤ m.addrsiz := Nat.not_le.mpr hst
          simp only [if_pos hst, PtRun.bounded_fail, hno, hr]
          tauto
        · have hle : (mapPhdr host m ehdr.ident off c).offset.toNat ≤ m.addrsiz := Nat.not_lt.mp hst
          rw [if_neg hst, PtRun.bounded_after]
          cases hcall : callback (given ++ _) with
          | fail e =>
            simp only [PtRun.bounded_nil, hr, hle, hty, reduceCtorEq]
            tauto
          | done =>
            simp only [PtRun.bounded_nil, hr, hle, hty, reduceCtorEq]
            tauto
          | more =>
            simp only [ih _ hnext, hr, hle, hty, and_true, true_implies, and_assoc]
      · rw [if_pos hty, if_neg hty, List.append_nil, ih _ hnext]
        simp only [hr, hty, and_true, true_implies, false_implies]
    · simp [hr, PtRun.bounded_fail]

end

/-- The file's headers stay inside: in words, no program header that the search comes to lies at
an offset whose sum with its size wraps around, and no segment of the type that it hands over
ends after the file. -/
def Mapping.Sound (host : Endian) (m : Mapping) (ptype : BitVec 32) (callback : PtCallback) : Prop :=
  ∀ ehdr, elfHeader host m = .ok ehdr → ehdr.linked →
    Reached host m ptype callback ehdr.read.2.ident ehdr.read.1 ehdr.read.2.phoff.toNat ehdr.read.2.phnum.toNat []

theorem phoff_lt {c : Class} (ehdr : Ehdr c) : ehdr.phoff.toNat < 2 ^ 64 := by
  have h := ehdr.phoff.isLt
  cases c with
  | elf32 => exact Nat.lt_trans h (by decide)
  | elf64 => exact h

/-- Every header read and every segment handed over lies in the mapping, or the reader fails before
it is used, exactly when no sum wraps and no segment ends after the file. -/
theorem elfIterateSharedObjectForPt_bounded (host : Endian) (m : Mapping) (ptype : BitVec 32)
    (callback : PtCallback) :
    (elfIterateSharedObjectForPt host m ptype callback).Bounded m.addrsiz ↔ m.Sound host ptype callback := by
  unfold elfIterateSharedObjectForPt Mapping.Sound
  by_cases h0 : m.addrsiz = 0
  · simp [h0, PtRun.bounded_nil, elfHeader]
  · rw [if_neg h0]
    cases hh : elfHeader host m with
    | error e =>
      by_cases h64 : 64 > m.addrsiz
      · simp [h64, PtRun.bounded_fail]
      · have hle : 0 + 64 ≤ m.addrsiz := by omega
        simp [PtRun.Bounded, h64]
        omega
    | ok ehdr =>
      have h64 : ¬64 > m.addrsiz := by
        intro h64
        rw [elfHeader, if_pos h64] at hh
        cases hh
      have hle : 0 + 64 ≤ m.addrsiz := by omega
      simp only [h64, decide_false, Bool.not_false, PtRun.bounded_after, hle, true_and, Except.ok.injEq]
      by_cases hl : ehdr.linked
      · rw [if_neg (not_not.mpr hl), elfIterateForPt_bounded _ _ _ _ _ _ _ (phoff_lt _)]
        simp [hl]
      · simp [hl, PtRun.bounded_nil]

def overrunFile : Bytes :=
  elfMag ++ [2, 1, 1] ++ List.replicate 9 0 ++ [2, 0] ++ List.replicate 14 0 ++ [64, 0, 0, 0, 0, 0, 0, 0] ++
    List.replicate 16 0 ++ [1, 0] ++ List.replicate 6 0 ++
    [3, 0, 0, 0, 4, 0, 0, 0] ++ List.replicate 24 0 ++ [0xe8, 3, 0, 0, 0, 0, 0, 0] ++ List.replicate 16 0

def overrunMap : Mapping := ⟨overrunFile, fun _ => 0, by decide⟩

theorem elfIterateSharedObjectForPt_overrun :
    ¬∀ (host : Endian) (m : Mapping) (ptype : BitVec 32) (callback : PtCallback),
      (elfIterateSharedObjectForPt host m ptype callback).Bounded m.addrsiz := by
  intro h
  have hrun : elfIterateSharedObjectForPt .little overrunMap 3 (fun _ => .done) =
      ([⟨0, 64, true⟩, ⟨64, 56, true⟩, ⟨0, 1000, true⟩], .ok ()) := by decide +kernel
  have hb := h .little overrunMap 3 (fun _ => .done)
  rw [hrun] at hb
  rcases hb ⟨0, 1000, true⟩ (by simp) with hin | hout
  · exact absurd hin (by decide)
  · exact absurd hout.1 (by decide)

end Iamroot
