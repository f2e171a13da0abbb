import Iamroot.ElfMap

/-!
# The two readers of the interpreter

`__elf_has_interp` looks for a `PT_INTERP` in the mapping, and `__felf_interp`
reads its string with `pread`. They come to the same headers in the same order,
and differ in what they ask of the segment: the one that it starts in the file,
the other that it can be read whole into a buffer.
-/

namespace Iamroot

open ByteOrder

def ptInterp : BitVec 32 := 3

section
variable (host : Endian)

def elfHasInterp (m : Mapping) : Int :=
  match (elfIterateSharedObjectForPt host m ptInterp fun _ => .done).2 with
  | .error .ENOENT => 0
  | .error _ => -1
  | .ok _ => 1

/-- `__elf_interp32` and `__elf_interp64`, which differ in the types only. -/
def elfInterp {c : Class} (f : Bytes) (ehdr : Ehdr c) (bufsiz : Nat) : Nat → Nat → Except Errno Bytes
  | 0, _ => .error .ENOEXEC
  | num + 1, off => do
    let phdr ← elfPhdr host ehdr.ident f off c
    if phdr.type ≠ ptInterp then elfInterp f ehdr bufsiz num (off + c.phdrSize)
    else if bufsiz < phdr.filesz.toNat then throw Errno.EIO
    else preadAll f phdr.filesz.toNat phdr.offset.toNat

def felfInterp (f : Bytes) (bufsiz : Nat) : Except Errno Bytes := do
  let ehdr := (← elfEhdr host f).read
  elfInterp host f ehdr.2 bufsiz ehdr.2.phnum.toNat ehdr.2.phoff.toNat

end

/-! ## What can be read -/

theorem slice_length_min (f : Bytes) (off n : Nat) : (slice f off n).length = min n (f.length - off) := by
  unfold slice
  rw [List.length_take, List.length_drop]

theorem preadAll_isOk (f : Bytes) (n off : Nat) :
    (∃ b, preadAll f n off = .ok b) ↔ off < 2 ^ 63 ∧ (off + n ≤ f.length ∨ n = 0) := by
  unfold preadAll pread
  by_cases hoff : off < 2 ^ 63
  · have hlen := slice_length_min f off n
    by_cases hshort : (slice f off n).length < n
    · simp only [if_pos hoff, if_pos hshort]
      simp
      omega
    · simp only [if_pos hoff, if_neg hshort]
      simp
      omega
  · rw [if_neg hoff]
    simp only [reduceCtorEq, exists_false, hoff, false_and]

theorem preadAll_whole {f : Bytes} {n off : Nat} (hoff : off < 2 ^ 63) (h : off + n ≤ f.length) :
    preadAll f n off = .ok (slice f off n) := by
  obtain ⟨b, hb⟩ := (preadAll_isOk f n off).mpr ⟨hoff, .inl h⟩
  rw [hb, (preadAll_ok hb).1]

section
variable (host : Endian) (m : Mapping)

theorem elfHeader_ok_iff (ehdr : AnyEhdr) : elfHeader host m = .ok ehdr ↔ elfEhdr host m.file = .ok ehdr := by
  unfold elfHeader elfEhdr
  by_cases h64 : 64 > m.addrsiz
  · have hno : ¬∃ b, preadAll m.file 64 0 = .ok b := by
      rw [preadAll_isOk]
      unfold Mapping.addrsiz at h64
      omega
    cases hp : preadAll m.file 64 0 with
    | error e => simp [h64, bind, Except.bind]
    | ok b => exact absurd ⟨b, hp⟩ hno
  · have hle : 0 + 64 ≤ m.addrsiz := by omega
    rw [if_neg h64, preadAll_whole (by decide) hle, m.memcpy_eq hle]
    simp only [bind, Except.bind]
    by_cases hmag : slice (slice m.file 0 64) 0 4 = elfMag
    · by_cases h32 : (slice m.file 0 64)[4]? = some Class.elf32.byte
      · simp [hmag, h32, pure, Except.pure]
      · by_cases hc : (slice m.file 0 64)[4]? = some Class.elf64.byte
        · simp [hmag, hc, pure, Except.pure, Class.byte]
        · simp [hmag, h32, hc]
    · simp [hmag]

theorem elfPhdr_within (ident : Bytes) {off : Nat} {c : Class} (h : off + c.phdrSize ≤ m.addrsiz) :
    elfPhdr host ident m.file off c = .ok (mapPhdr host m ident off c) := by
  have hfits := m.fits
  have hlt : off < 2 ^ 63 := by
    unfold Mapping.addrsiz at h
    omega
  unfold mapPhdr fileOrder
  rw [m.memcpy_eq h]
  cases c with
  | elf32 =>
    have hlen : (slice m.file off 32).length = 32 := slice_length h
    have hall : preadAll m.file 32 off = .ok (slice m.file off 32) := preadAll_whole hlt h
    simp only [elfPhdr, elf32Phdr, hall, Class.phdrSize, bind, Except.bind, pure, Except.pure]
    cases hs : elfSwap host ident <;> simp (disch := omega) [Phdr.load, bswap32_slice]
  | elf64 =>
    have hlen : (slice m.file off 56).length = 56 := slice_length h
    have hall : preadAll m.file 56 off = .ok (slice m.file off 56) := preadAll_whole hlt h
    simp only [elfPhdr, elf64Phdr, hall, Class.phdrSize, bind, Except.bind, pure, Except.pure]
    cases hs : elfSwap host ident <;> simp (disch := omega) [Phdr.load, bswap32_slice, bswap64_slice]

theorem elfPhdr_error {f : Bytes} (ident : Bytes) {off : Nat} {c : Class}
    (h : ¬∃ b, preadAll f c.phdrSize off = .ok b) : ∃ e, elfPhdr host ident f off c = .error e := by
  cases hp : preadAll f c.phdrSize off with
  | ok b => exact absurd ⟨b, hp⟩ h
  | error e =>
    refine ⟨e, ?_⟩
    cases c with
    | elf32 => simp only [elfPhdr, elf32Phdr, show preadAll f 32 off = .error e from hp, bind, Except.bind]
    | elf64 => simp only [elfPhdr, elf64Phdr, show preadAll f 56 off = .error e from hp, bind, Except.bind]

/-! ## The first interpreter -/

variable (ident : Bytes) {c : Class}

/-- What holds of the first `PT_INTERP` that the mapped reader comes to, if it comes to one. -/
def FirstInterp (off num : Nat) (P : Phdr c → Prop) : Prop :=
  ∀ i < num,
    (∀ j < i, InRange m (mapOff c off j) c.phdrSize ∧ (mapPhdr host m ident (mapOff c off j) c).type ≠ ptInterp) →
    InRange m (mapOff c off i) c.phdrSize → (mapPhdr host m ident (mapOff c off i) c).type = ptInterp →
    P (mapPhdr host m ident (mapOff c off i) c)

instance (off num : Nat) (P : Phdr c → Prop) [DecidablePred P] : Decidable (FirstInterp host m ident off num P) :=
  inferInstanceAs (Decidable (∀ i < num, _ → _ → _ → _))

theorem firstInterp_succ {off : Nat} (num : Nat) (P : Phdr c → Prop) (h : off < 2 ^ 64) :
    FirstInterp host m ident off (num + 1) P ↔ (InRange m off c.phdrSize →
      if (mapPhdr host m ident off c).type = ptInterp then P (mapPhdr host m ident off c)
      else FirstInterp host m ident ((off + c.phdrSize) % 2 ^ 64) num P) := by
  unfold FirstInterp
  rw [Nat.forall_lt_succ_left]
  simp only [Nat.forall_lt_succ_left, mapOff_succ, mapOff_zero c h]
  by_cases hr : InRange m off c.phdrSize
  · by_cases hty : (mapPhdr host m ident off c).type = ptInterp
    · simp [hr, hty]
    · simp [hr, hty]
  · simp [hr]

theorem firstInterp_cases (num : Nat) {off : Nat} (h : off < 2 ^ 64) :
    (∀ P : Phdr c → Prop, FirstInterp host m ident off num P) ∨
      ∃ phdr : Phdr c, ∀ P, FirstInterp host m ident off num P ↔ P phdr := by
  induction num generalizing off with
  | zero => exact .inl fun P => by simp [FirstInterp]
  | succ num ih =>
    simp only [firstInterp_succ host m ident num _ h]
    by_cases hr : InRange m off c.phdrSize
    · by_cases hty : (mapPhdr host m ident off c).type = ptInterp
      · exact .inr ⟨mapPhdr host m ident off c, by simp [hr, hty]⟩
      · simpa [hr, hty] using ih (Nat.mod_lt (off + c.phdrSize) (by decide))
    · exact .inl (by simp [hr])

theorem elfIterateForPt_ok_iff (ehdr : Ehdr c) (num : Nat) {off : Nat} (given : List (Nat × Nat)) (hoff : off < 2 ^ 64) :
    (elfIterateForPt host m ptInterp (fun _ => .done) ehdr num off given).2 = .ok () ↔
      ¬FirstInterp host m ehdr.ident off num fun phdr : Phdr c => ¬phdr.offset.toNat ≤ m.addrsiz := by
  induction num generalizing off given with
  | zero => simp [elfIterateForPt, FirstInterp]
  | succ num ih =>
    have hnext : (off + c.phdrSize) % 2 ^ 64 < 2 ^ 64 := Nat.mod_lt _ (by decide)
    rw [firstInterp_succ host m ehdr.ident num _ hoff]
    unfold elfIterateForPt
    rw [elfProgramHeader_eq]
    by_cases hr : InRange m off c.phdrSize
    · rw [if_pos hr]
      by_cases hty : (mapPhdr host m ehdr.ident off c).type = ptInterp
      · by_cases hst : (mapPhdr host m ehdr.ident off c).offset.toNat > m.addrsiz
        · simp [PtRun.after, hr, hty, hst]
        · simp [PtRun.after, hr, hty, hst]
      · simp only [PtRun.after, hr, hty, ne_eq, not_false_eq_true, if_true, if_false, true_implies, ih _ hnext]
    · simp [hr]

/-- The bytes of the segment are all there, for a buffer of `bufsiz`. -/
def Complete (m : Mapping) (bufsiz : Nat) (phdr : Phdr c) : Prop :=
  phdr.filesz.toNat ≤ bufsiz ∧ phdr.offset.toNat < 2 ^ 63 ∧
    (phdr.offset.toNat + phdr.filesz.toNat ≤ m.addrsiz ∨ phdr.filesz.toNat = 0)

instance (bufsiz : Nat) (phdr : Phdr c) : Decidable (Complete m bufsiz phdr) :=
  inferInstanceAs (Decidable (_ ∧ _ ∧ (_ ∨ _)))

theorem elfInterp_ok_iff (ehdr : Ehdr c) (bufsiz num : Nat) {off : Nat} (hoff : off + c.phdrSize < 2 ^ 64) :
    (∃ s, elfInterp host m.file ehdr bufsiz num off = .ok s) ↔
      ¬FirstInterp host m ehdr.ident off num fun phdr : Phdr c => ¬Complete m bufsiz phdr := by
  induction num generalizing off with
  | zero => simp [elfInterp, FirstInterp]
  | succ num ih =>
    have hfits := m.fits
    rw [firstInterp_succ host m ehdr.ident num _ (by omega)]
    unfold elfInterp
    by_cases hin : off + c.phdrSize ≤ m.addrsiz
    · have hr : InRange m off c.phdrSize := by
        unfold InRange
        rw [Nat.mod_eq_of_lt hoff]
        omega
      have hsize : c.phdrSize ≤ 56 := by cases c <;> decide
      have hnext : off + c.phdrSize + c.phdrSize < 2 ^ 64 := by
        unfold Mapping.addrsiz at hin
        omega
      rw [elfPhdr_within host m ehdr.ident hin]
      simp only [hr, true_implies, bind, Except.bind, Nat.mod_eq_of_lt hoff]
      by_cases hty : (mapPhdr host m ehdr.ident off c).type = ptInterp
      · by_cases hbuf : bufsiz < (mapPhdr host m ehdr.ident off c).filesz.toNat
        · have hno : ¬(mapPhdr host m ehdr.ident off c).filesz.toNat ≤ bufsiz := by omega
          simp [hty, hbuf, Complete, hno, throw, throwThe, MonadExceptOf.throw]
        · have hle : (mapPhdr host m ehdr.ident off c).filesz.toNat ≤ bufsiz := by omega
          simp only [hty, hbuf, ne_eq, not_true_eq_false, if_true, if_false, preadAll_isOk, Complete, hle, true_and,
            Mapping.addrsiz, not_not]
      · simp only [hty, ne_eq, not_false_eq_true, if_true, if_false, ih hnext]
    · have hr : ¬InRange m off c.phdrSize := by
        unfold InRange
        rw [Nat.mod_eq_of_lt hoff]
        omega
      have hno : ¬∃ b, preadAll m.file c.phdrSize off = .ok b := by
        have hsize : 0 < c.phdrSize := by cases c <;> decide
        rw [preadAll_isOk]
        unfold Mapping.addrsiz at hin
        omega
      obtain ⟨e, he⟩ := elfPhdr_error host ehdr.ident hno
      simp [he, hr, bind, Except.bind]

/-- An offset that wraps is a negative `off_t`. -/
theorem elfInterp_wrap (ehdr : Ehdr c) (bufsiz num : Nat) {off : Nat} (hoff : 2 ^ 64 ≤ off + c.phdrSize) :
    ¬∃ s, elfInterp host m.file ehdr bufsiz num off = .ok s := by
  have hsize : c.phdrSize ≤ 56 := by cases c <;> decide
  cases num with
  | zero => simp [elfInterp]
  | succ num =>
    have hno : ¬∃ b, preadAll m.file c.phdrSize off = .ok b := by
      rw [preadAll_isOk]
      omega
    obtain ⟨e, he⟩ := elfPhdr_error host ehdr.ident hno
    simp [elfInterp, he, bind, Except.bind]

/-- The first interpreter starts in the file exactly when it can be read whole. -/
def SameInterp (ehdr : Ehdr c) (bufsiz : Nat) : Prop :=
  FirstInterp host m ehdr.ident ehdr.phoff.toNat ehdr.phnum.toNat fun phdr : Phdr c =>
    phdr.offset.toNat ≤ m.addrsiz ↔ ehdr.phoff.toNat + c.phdrSize < 2 ^ 64 ∧ Complete m bufsiz phdr

instance (ehdr : Ehdr c) (bufsiz : Nat) : Decidable (SameInterp host m ehdr bufsiz) :=
  inferInstanceAs (Decidable (FirstInterp host m ehdr.ident _ _ _))

theorem sameInterp_iff (ehdr : Ehdr c) (bufsiz : Nat) :
    ((elfIterateForPt host m ptInterp (fun _ => .done) ehdr ehdr.phnum.toNat ehdr.phoff.toNat []).2 = .ok () ↔
      ∃ s, elfInterp host m.file ehdr bufsiz ehdr.phnum.toNat ehdr.phoff.toNat = .ok s) ↔
      SameInterp host m ehdr bufsiz := by
  have hlt := phoff_lt ehdr
  rw [elfIterateForPt_ok_iff host m ehdr _ _ hlt]
  unfold SameInterp
  by_cases hw : ehdr.phoff.toNat + c.phdrSize < 2 ^ 64
  · rw [elfInterp_ok_iff host m ehdr bufsiz _ hw]
    rcases firstInterp_cases host m ehdr.ident (c := c) ehdr.phnum.toNat hlt with hnone | ⟨phdr, hone⟩
    · simp [hnone]
    · simp only [hone, hw, true_and, not_not]
  · have hno := elfInterp_wrap host m ehdr bufsiz ehdr.phnum.toNat (Nat.not_lt.mp hw)
    rcases firstInterp_cases host m ehdr.ident (c := c) ehdr.phnum.toNat hlt with hnone | ⟨phdr, hone⟩
    · simp [hnone, hno]
    · simp only [hone, hw, hno, false_and, not_not]

/-- 1 when the string is found, and 0 or -1 in every other case. -/
def HasInterpAgrees (bufsiz : Nat) : Prop :=
  ((∃ s, felfInterp host m.file bufsiz = .ok s) → elfHasInterp host m = 1) ∧
    ((¬∃ s, felfInterp host m.file bufsiz = .ok s) → elfHasInterp host m = 0 ∨ elfHasInterp host m = -1)

theorem hasInterpAgrees_iff (bufsiz : Nat) :
    HasInterpAgrees host m bufsiz ↔
      ((elfIterateSharedObjectForPt host m ptInterp fun _ => .done).2 = .ok () ↔
        ∃ s, felfInterp host m.file bufsiz = .ok s) := by
  unfold HasInterpAgrees elfHasInterp
  cases (elfIterateSharedObjectForPt host m ptInterp fun _ => .done).2 with
  | error e => cases e <;> simp
  | ok u => simp

/-- Of the programs and the shared objects, the two readers agree on those where the first
interpreter starts in the file exactly when it is whole. -/
theorem elfHasInterp_agrees (bufsiz : Nat) (hty : ∀ ehdr, elfEhdr host m.file = .ok ehdr → ehdr.linked) :
    HasInterpAgrees host m bufsiz ↔
      ∀ ehdr, elfEhdr host m.file = .ok ehdr → SameInterp host m ehdr.read.2 bufsiz := by
  rw [hasInterpAgrees_iff]
  unfold elfIterateSharedObjectForPt felfInterp
  cases hf : elfEhdr host m.file with
  | error e =>
    have hh : ∀ ehdr, elfHeader host m ≠ .ok ehdr := by
      intro ehdr h
      rw [elfHeader_ok_iff, hf] at h
      cases h
    cases hm : elfHeader host m with
    | error e =>
      by_cases h0 : m.addrsiz = 0
      · simp [h0, bind, Except.bind]
      · simp [h0, bind, Except.bind]
    | ok ehdr => exact absurd hm (hh ehdr)
  | ok ehdr =>
    have hl := hty ehdr hf
    have hh := (elfHeader_ok_iff host m ehdr).mpr hf
    have h0 : m.addrsiz ≠ 0 := by
      intro h0
      rw [elfHeader, h0, if_pos (by decide)] at hh
      cases hh
    simp only [h0, hh, hl, not_true_eq_false, if_false, PtRun.after, bind, Except.bind, Except.ok.injEq,
      forall_eq', sameInterp_iff]

end

def wholeFile : Bytes :=
  elfMag ++ [2, 1, 1] ++ List.replicate 9 0 ++ [2, 0] ++ List.replicate 14 0 ++ [64, 0, 0, 0, 0, 0, 0, 0] ++
    List.replicate 16 0 ++ [1, 0] ++ List.replicate 6 0 ++
    [3, 0, 0, 0, 4, 0, 0, 0] ++ List.replicate 24 0 ++ [4, 0, 0, 0, 0, 0, 0, 0] ++ List.replicate 16 0

def wholeMap : Mapping := ⟨wholeFile, fun _ => 0, by decide⟩

theorem wholeFile_ehdr : elfEhdr .little wholeFile = .ok (.elf64 (elf64Ehdr .little (slice wholeFile 0 64))) := by
  rfl

theorem elfHasInterp_agrees_whole : HasInterpAgrees .little wholeMap 255 := by
  refine (elfHasInterp_agrees .little wholeMap 255 ?_).mpr ?_
  · intro ehdr h
    cases wholeFile_ehdr.symm.trans h
    decide
  · intro ehdr h
    cases wholeFile_ehdr.symm.trans h
    decide +kernel

theorem elfHasInterp_overrun :
    ¬∀ (host : Endian) (m : Mapping) (bufsiz : Nat), (∀ ehdr, elfEhdr host m.file = .ok ehdr → ehdr.linked) →
      HasInterpAgrees host m bufsiz := by
  intro h
  have hehdr : elfEhdr .little overrunFile = .ok (.elf64 (elf64Ehdr .little (slice overrunFile 0 64))) := by
    rfl
  have hhas : elfHasInterp .little overrunMap = 1 := by decide +kernel
  have hread : felfInterp .little overrunFile 255 = .error Errno.EIO := by decide
  have hagree := (h .little overrunMap 255 fun ehdr he => by
    cases hehdr.symm.trans he
    decide).2
  rcases hagree (by simp [overrunMap, hread]) with h0 | h1
  · exact absurd (hhas.symm.trans h0) (by decide)
  · exact absurd (hhas.symm.trans h1) (by decide)

end Iamroot
