import Iamroot.ElfOrder

/-!
# Byte-order independence of the ELF reader

The twin of an ELF file has the other `EI_DATA` and the bytes of every
multi-byte field of the headers and of the dynamic section reversed. What is
read in the order of the file is the same in both; what stays in the order of
the host is the same only when its bytes are a palindrome.
-/

namespace Iamroot

open ByteOrder

/-! ## Twins -/

namespace Class

/-! Where the multi-byte fields lie: the offset and the size of each. -/

def ehdrFields : Class → List (Nat × Nat)
  | elf32 => [(16, 2), (18, 2), (20, 4), (24, 4), (28, 4), (32, 4), (36, 4), (40, 2), (42, 2), (44, 2), (46, 2), (48, 2),
      (50, 2)]
  | elf64 => [(16, 2), (18, 2), (20, 4), (24, 8), (32, 8), (40, 8), (48, 4), (52, 2), (54, 2), (56, 2), (58, 2), (60, 2),
      (62, 2)]

def phdrFields : Class → List (Nat × Nat)
  | elf32 => [(0, 4), (4, 4), (8, 4), (12, 4), (16, 4), (20, 4), (24, 4), (28, 4)]
  | elf64 => [(0, 4), (4, 4), (8, 8), (16, 8), (24, 8), (32, 8), (40, 8), (48, 8)]

def shdrFields : Class → List (Nat × Nat)
  | elf32 => [(0, 4), (4, 4), (8, 4), (12, 4), (16, 4), (20, 4), (24, 4), (28, 4), (32, 4), (36, 4)]
  | elf64 => [(0, 4), (4, 4), (8, 8), (16, 8), (24, 8), (32, 8), (40, 4), (44, 4), (48, 8), (56, 8)]

def dynFields : Class → List (Nat × Nat)
  | elf32 => [(0, 4), (4, 4)]
  | elf64 => [(0, 8), (8, 8)]

end Class

def Fits (f : Bytes) (off n : Nat) : Prop := off < 2 ^ 63 ∧ off + n ≤ f.length

/-- The bytes of the fields of the structure at `base` are reversed. -/
def Flipped (f f' : Bytes) (fields : List (Nat × Nat)) (base : Nat) : Prop :=
  ∀ r ∈ fields, slice f' (base + r.1) r.2 = (slice f (base + r.1) r.2).reverse

instance (f : Bytes) (off n : Nat) : Decidable (Fits f off n) := inferInstanceAs (Decidable (_ ∧ _))

instance (f f' : Bytes) (fields : List (Nat × Nat)) (base : Nat) : Decidable (Flipped f f' fields base) :=
  inferInstanceAs (Decidable (∀ r ∈ fields, _))

section
variable (c : Class) (enc : Endian) (f : Bytes)

structure IsElf : Prop where
  magic : slice f 0 4 = elfMag
  cls : f[4]? = some c.byte
  data : f[5]? = some (eiData enc)

def phdrOff (i : Nat) : Nat := (Ehdr.load enc f c).phoff.toNat + i * c.phdrSize

def shdrOff (i : Nat) : Nat := (Ehdr.load enc f c).shoff.toNat + i * c.shdrSize

def HasPhdr (i : Nat) : Prop := i < (Ehdr.load enc f c).phnum.toNat ∧ Fits f (phdrOff c enc f i) c.phdrSize

def HasShdr (i : Nat) : Prop := i < (Ehdr.load enc f c).shnum.toNat ∧ Fits f (shdrOff c enc f i) c.shdrSize

def phdrAt (i : Nat) : Phdr c := Phdr.load enc (slice f (phdrOff c enc f i) c.phdrSize) c

def shdrAt (i : Nat) : Shdr c := Shdr.load enc (slice f (shdrOff c enc f i) c.shdrSize) c

def HasDyn (p : Phdr c) : Prop :=
  (∃ i, HasPhdr c enc f i ∧ p = phdrAt c enc f i) ∧ p.type = ptDynamic ∧ p.filesz.toNat ≤ c.dynCap ∧
    Fits f p.offset.toNat p.filesz.toNat

def dynAt (p : Phdr c) (j : Nat) : Dyn c := Dyn.load enc (slice f (p.offset.toNat + j * c.dynSize) c.dynSize) c

/-- `f'` is the twin of `f`. What is not a field stays: the strings are where they were. -/
structure Twin (f' : Bytes) : Prop where
  length_eq : f'.length = f.length
  ident : slice f' 0 16 = (slice f 0 16).set 5 (eiData enc.flip)
  ehdr : Flipped f f' c.ehdrFields 0
  phdr : ∀ i, HasPhdr c enc f i → Flipped f f' c.phdrFields (phdrOff c enc f i)
  shdr : ∀ i, HasShdr c enc f i → Flipped f f' c.shdrFields (shdrOff c enc f i)
  dyn : ∀ p, HasDyn c enc f p → ∀ j, j < p.filesz.toNat / c.dynSize →
    Flipped f f' c.dynFields (p.offset.toNat + j * c.dynSize)
  strings : ∀ i, HasShdr c enc f i → (shdrAt c enc f i).type = shtStrtab → ∀ p, HasDyn c enc f p →
    ∀ j, j < p.filesz.toNat / c.dynSize → isString ((dynAt c enc f p j).tag.setWidth 32) →
      let r := strRange ((shdrAt c enc f i).size.toNat, (shdrAt c enc f i).offset.toNat) (dynAt c enc f p j)
      slice f' r.1 r.2 = slice f r.1 r.2

/-- The fields that the reader leaves in the order of the host are palindromes. -/
structure Palindromes : Prop where
  phentsize : slice f c.phentsizeOff 2 = (slice f c.phentsizeOff 2).reverse
  info : c = .elf32 → ∀ i, HasShdr c enc f i →
    slice f (shdrOff c enc f i + 28) 4 = (slice f (shdrOff c enc f i + 28) 4).reverse
  dyn : ∀ p, HasDyn c enc f p → ∀ j, 0 < j → j < p.filesz.toNat / c.dynSize → ∀ r ∈ c.dynFields,
    slice f (p.offset.toNat + j * c.dynSize + r.1) r.2 = (slice f (p.offset.toNat + j * c.dynSize + r.1) r.2).reverse

end

/-! ## What the reader makes of the two files -/

def Ehdr.normal {c : Class} (e : Ehdr c) : Ehdr c := { e with ident := e.ident.eraseIdx 5 }

/-- Everything that is read from either file under its header is the same. -/
structure SameRead (host : Endian) (f f' : Bytes) {c : Class} (e e' : Ehdr c) : Prop where
  ehdr : e.normal = e'.normal
  phdr : ∀ i, i < e.phnum.toNat → elfPhdr host e.ident f (e.phoff.toNat + i * c.phdrSize) c =
    elfPhdr host e'.ident f' (e'.phoff.toNat + i * c.phdrSize) c
  shdr : ∀ i, i < e.shnum.toNat → elfShdr host e.ident f (e.shoff.toNat + i * c.shdrSize) c =
    elfShdr host e'.ident f' (e'.shoff.toNat + i * c.shdrSize) c
  dyn : ∀ i, i < e.phnum.toNat → ∀ p, elfPhdr host e.ident f (e.phoff.toNat + i * c.phdrSize) c = .ok p →
    p.type = ptDynamic → p.filesz.toNat ≤ c.dynCap →
      elfDyn host e.ident f p.filesz.toNat p.offset.toNat c = elfDyn host e'.ident f' p.filesz.toNat p.offset.toNat c
  iterate : ∀ (dtag : BitVec 32) (σ : Type) (callback : σ → Arg c → σ × Int) (s : σ),
    elfIterateEhdr host f e dtag callback s = elfIterateEhdr host f' e' dtag callback s

def SameImage (host : Endian) (f f' : Bytes) : Prop :=
  match elfEhdr host f, elfEhdr host f' with
  | .ok (.elf32 e), .ok (.elf32 e') => SameRead host f f' e e'
  | .ok (.elf64 e), .ok (.elf64 e') => SameRead host f f' e e'
  | .error x, .error y => x = y
  | _, _ => False

/-! ## The structures of the two files -/

section
variable {c : Class} {enc : Endian} {f f' : Bytes}

theorem Flipped.load {fields : List (Nat × Nat)} {base : Nat} (h : Flipped f f' fields base) {v o w : Nat}
    (hr : (o, w) ∈ fields) : load v enc.flip (slice f' (base + o) w) = load v enc (slice f (base + o) w) := by
  rw [h (o, w) hr, load_flip_reverse]

theorem Phdr.load_flipped {base : Nat} (h : Flipped f f' c.phdrFields base) :
    Phdr.load enc.flip (slice f' base c.phdrSize) c = Phdr.load enc (slice f base c.phdrSize) c := by
  cases c <;> simp (disch := decide) only [Phdr.load, slice_slice, h.load]

theorem Shdr.load_flipped {base : Nat} (h : Flipped f f' c.shdrFields base) :
    Shdr.load enc.flip (slice f' base c.shdrSize) c = Shdr.load enc (slice f base c.shdrSize) c := by
  cases c <;> simp (disch := decide) only [Shdr.load, slice_slice, h.load]

theorem Dyn.load_flipped {base : Nat} (h : Flipped f f' c.dynFields base) :
    Dyn.load enc.flip (slice f' base c.dynSize) c = Dyn.load enc (slice f base c.dynSize) c := by
  cases c <;> simp (disch := decide) only [Dyn.load, slice_slice, h.load]

theorem Ehdr.load_flipped (h : Flipped f f' c.ehdrFields 0) :
    Ehdr.load enc.flip f' c = { Ehdr.load enc f c with ident := slice f' 0 16 } := by
  have hz : ∀ {v o w : Nat}, (o, w) ∈ c.ehdrFields → ByteOrder.load v enc.flip (slice f' o w) =
      ByteOrder.load v enc (slice f o w) := by
    intro v o w hr
    have : ByteOrder.load v enc.flip (slice f' (0 + o) w) = ByteOrder.load v enc (slice f (0 + o) w) := h.load hr
    rwa [Nat.zero_add] at this
  cases c <;> simp (disch := decide) only [Ehdr.load, hz]

theorem Ehdr.load_slice (e : Endian) (f : Bytes) : Ehdr.load e (slice f 0 64) c = Ehdr.load e f c := by
  cases c <;> simp (disch := decide) only [Ehdr.load, slice_slice, Nat.zero_add]

theorem Ehdr.read_slice (host e : Endian) (f : Bytes) : Ehdr.read host e (slice f 0 64) c = Ehdr.read host e f c := by
  unfold Ehdr.read
  rw [Ehdr.load_slice]
  cases c <;> simp (disch := decide) only [Class.phentsizeOff, slice_slice, Nat.zero_add]

theorem Shdr.read_flipped_iff {host : Endian} {base : Nat} (hl : base + c.shdrSize ≤ f.length)
    (h : Flipped f f' c.shdrFields base) :
    Shdr.read host enc (slice f base c.shdrSize) c = Shdr.read host enc.flip (slice f' base c.shdrSize) c ↔
      (c = .elf32 → slice f (base + 28) 4 = (slice f (base + 28) 4).reverse) := by
  cases c with
  | elf32 =>
    have hi : slice f' (base + 28) 4 = (slice f (base + 28) 4).reverse := h (28, 4) (by decide)
    have hlen : 8 * (slice f (base + 28) 4).length = 32 := by
      rw [slice_length (by rw [Class.shdrSize] at hl; omega)]
    unfold Shdr.read
    rw [Shdr.load_flipped h, slice_slice f (by decide), slice_slice f' (by decide), hi]
    simp only [Shdr.mk.injEq, true_and, and_true, true_implies]
    exact load_reverse_eq_iff host hlen
  | elf64 =>
    unfold Shdr.read
    rw [Shdr.load_flipped h]
    exact ⟨fun _ => nofun, fun _ => rfl⟩

theorem Dyn.load_eq_iff {host : Endian} {base : Nat} (hl : base + c.dynSize ≤ f.length)
    (h : Flipped f f' c.dynFields base) :
    Dyn.load host (slice f base c.dynSize) c = Dyn.load host (slice f' base c.dynSize) c ↔
      ∀ r ∈ c.dynFields, slice f (base + r.1) r.2 = (slice f (base + r.1) r.2).reverse := by
  cases c with
  | elf32 =>
    have h0 : slice f' (base + 0) 4 = (slice f (base + 0) 4).reverse := h (0, 4) (by decide)
    have h4 : slice f' (base + 4) 4 = (slice f (base + 4) 4).reverse := h (4, 4) (by decide)
    rw [Class.dynSize] at hl
    simp (disch := decide) only [Dyn.load, slice_slice, h0, h4, Dyn.mk.injEq]
    rw [load_reverse_eq_iff host (by rw [slice_length (by omega)]), load_reverse_eq_iff host (by rw [slice_length (by omega)])]
    simp [Class.dynFields]
  | elf64 =>
    have h0 : slice f' (base + 0) 8 = (slice f (base + 0) 8).reverse := h (0, 8) (by decide)
    have h8 : slice f' (base + 8) 8 = (slice f (base + 8) 8).reverse := h (8, 8) (by decide)
    rw [Class.dynSize] at hl
    simp (disch := decide) only [Dyn.load, slice_slice, h0, h8, Dyn.mk.injEq]
    rw [load_reverse_eq_iff host (by rw [slice_length (by omega)]), load_reverse_eq_iff host (by rw [slice_length (by omega)])]
    simp [Class.dynFields]

end

/-! ## The reads of the two files -/

theorem preadAll_fits {f : Bytes} {n off : Nat} (h : Fits f off n) : preadAll f n off = .ok (slice f off n) := by
  unfold preadAll pread
  rw [if_pos h.1]
  simp only [slice_length h.2, Nat.lt_irrefl, if_false]

theorem preadAll_cases {f f' : Bytes} (hl : f'.length = f.length) {n : Nat} (hn : 0 < n) (off : Nat) :
    Fits f off n ∨ ∃ e, preadAll f n off = .error e ∧ preadAll f' n off = .error e := by
  by_cases hoff : off < 2 ^ 63
  · by_cases hfit : off + n ≤ f.length
    · exact Or.inl ⟨hoff, hfit⟩
    · have hs : ∀ g : Bytes, g.length = f.length → (slice g off n).length < n := by
        intro g hg
        unfold slice
        rw [List.length_take, List.length_drop, hg]
        omega
      right
      refine ⟨ Errno.EIO, ?_, ?_⟩
      · simp only [preadAll, pread, if_pos hoff, if_pos (hs f rfl)]
      · simp only [preadAll, pread, if_pos hoff, if_pos (hs f' hl)]
  · right
    exact ⟨.EINVAL, by simp only [preadAll, pread, if_neg hoff], by simp only [preadAll, pread, if_neg hoff]⟩

theorem Fits.of_length {f f' : Bytes} (hl : f'.length = f.length) {off n : Nat} (h : Fits f off n) : Fits f' off n :=
  ⟨h.1, by rw [hl]; exact h.2⟩

theorem IsElf.ident {c : Class} {enc : Endian} {f : Bytes} (h : IsElf c enc f) :
    (slice f 0 16)[5]? = some (eiData enc) := (slice_getElem? f (by decide)).trans h.data

theorem slice_take (f : Bytes) {n m : Nat} (h : n ≤ m) : slice f 0 n = (slice f 0 m).take n := by
  unfold slice
  rw [List.take_take, Nat.min_eq_left h]

section
variable {c : Class} {enc : Endian} {f f' : Bytes} (hf : IsElf c enc f) (ht : Twin c enc f f')
include hf ht

theorem Twin.isElf : IsElf c enc.flip f' where
  magic := by
    rw [slice_take f' (m := 16) (by decide), ht.ident, List.take_set_of_le (by decide), ← slice_take f (by decide)]
    exact hf.magic
  cls := by
    rw [← slice_getElem? f' (n := 16) (by decide), ht.ident, List.getElem?_set_ne (by decide),
      slice_getElem? f (by decide)]
    exact hf.cls
  data := by
    obtain ⟨h5, -⟩ := List.getElem?_eq_some_iff.mp hf.ident
    rw [← slice_getElem? f' (n := 16) (by decide), ht.ident, List.getElem?_set_self h5]

theorem phdr_same (host : Endian) {i : Nat} (hi : i < (Ehdr.load enc f c).phnum.toNat) :
    elfPhdr host (slice f 0 16) f (phdrOff c enc f i) c = elfPhdr host (slice f' 0 16) f' (phdrOff c enc f i) c := by
  rw [elfPhdr_eq hf.ident, elfPhdr_eq (Twin.isElf hf ht).ident]
  rcases preadAll_cases ht.length_eq (n := c.phdrSize) (by cases c <;> decide) (phdrOff c enc f i) with h | ⟨e, h, h'⟩
  · rw [preadAll_fits h, preadAll_fits (h.of_length ht.length_eq)]
    exact congrArg Except.ok (Phdr.load_flipped (ht.phdr i ⟨hi, h⟩)).symm
  · rw [h, h']; rfl

theorem shdr_same_iff (host : Endian) {i : Nat} (hi : i < (Ehdr.load enc f c).shnum.toNat) :
    elfShdr host (slice f 0 16) f (shdrOff c enc f i) c = elfShdr host (slice f' 0 16) f' (shdrOff c enc f i) c ↔
      (c = .elf32 → HasShdr c enc f i →
        slice f (shdrOff c enc f i + 28) 4 = (slice f (shdrOff c enc f i + 28) 4).reverse) := by
  rw [elfShdr_eq hf.ident, elfShdr_eq (Twin.isElf hf ht).ident]
  rcases preadAll_cases ht.length_eq (n := c.shdrSize) (by cases c <;> decide) (shdrOff c enc f i) with h | ⟨e, h, h'⟩
  · rw [preadAll_fits h, preadAll_fits (h.of_length ht.length_eq)]
    have hs : Shdr.read host enc _ c = _ ↔ _ := Shdr.read_flipped_iff h.2 (ht.shdr i ⟨hi, h⟩)
    constructor
    · intro e hc _
      exact hs.mp (Except.ok.inj e) hc
    · intro hp
      exact congrArg Except.ok (hs.mpr fun hc => hp hc ⟨hi, h⟩)
  · rw [h, h']
    refine ⟨fun _ _ hh => ?_, fun _ => rfl⟩
    rw [preadAll_fits hh.2] at h
    cases h

theorem dyn_same_iff (host : Endian) {p : Phdr c} (hp : HasDyn c enc f p) :
    elfDyn host (slice f 0 16) f p.filesz.toNat p.offset.toNat c =
        elfDyn host (slice f' 0 16) f' p.filesz.toNat p.offset.toNat c ↔
      ∀ j, 0 < j → j < p.filesz.toNat / c.dynSize → ∀ r ∈ c.dynFields,
        slice f (p.offset.toNat + j * c.dynSize + r.1) r.2 =
          (slice f (p.offset.toNat + j * c.dynSize + r.1) r.2).reverse := by
  have hfit : ∀ j, j < p.filesz.toNat / c.dynSize → j * c.dynSize + c.dynSize ≤ p.filesz.toNat := by
    intro j hj
    calc j * c.dynSize + c.dynSize = (j + 1) * c.dynSize := (Nat.succ_mul j c.dynSize).symm
      _ ≤ p.filesz.toNat / c.dynSize * c.dynSize := Nat.mul_le_mul_right _ hj
      _ ≤ p.filesz.toNat := Nat.div_mul_le_self _ _
  have hbase : ∀ j, j < p.filesz.toNat / c.dynSize → p.offset.toNat + j * c.dynSize + c.dynSize ≤ f.length := by
    intro j hj
    have h1 := hfit j hj
    have h2 := hp.2.2.2.2
    omega
  rw [elfDyn_eq hf.ident, elfDyn_eq (Twin.isElf hf ht).ident, preadAll_fits hp.2.2.2,
    preadAll_fits (hp.2.2.2.of_length ht.length_eq)]
  show Except.ok (dynRead host enc c _ _) = Except.ok (dynRead host enc.flip c _ _) ↔ _
  unfold dynRead
  rw [Except.ok.injEq, List.map_inj_left]
  constructor
  · intro h j h0 hj
    have he := h j (List.mem_range.mpr hj)
    rw [if_neg (Nat.ne_of_gt h0), if_neg (Nat.ne_of_gt h0), slice_slice f (hfit j hj), slice_slice f' (hfit j hj)] at he
    exact (Dyn.load_eq_iff (hbase j hj) (ht.dyn p hp j hj)).mp he
  · intro h j hj
    have hj := List.mem_range.mp hj
    rw [slice_slice f (hfit j hj), slice_slice f' (hfit j hj)]
    rcases Nat.eq_zero_or_pos j with rfl | h0
    · rw [if_pos rfl, if_pos rfl]
      exact (Dyn.load_flipped (ht.dyn p hp 0 hj)).symm
    · rw [if_neg (Nat.ne_of_gt h0), if_neg (Nat.ne_of_gt h0)]
      exact (Dyn.load_eq_iff (hbase j hj) (ht.dyn p hp j hj)).mpr (h j h0 hj)

theorem normal_same_iff (host : Endian) (h64 : 64 ≤ f.length) :
    (Ehdr.read host enc f c).normal = (Ehdr.read host enc.flip f' c).normal ↔
      slice f c.phentsizeOff 2 = (slice f c.phentsizeOff 2).reverse := by
  have hp : slice f' c.phentsizeOff 2 = (slice f c.phentsizeOff 2).reverse := by
    have h := ht.ehdr (c.phentsizeOff, 2) (by cases c <;> decide)
    rwa [Nat.zero_add] at h
  have hl : 8 * (slice f c.phentsizeOff 2).length = 16 := by
    rw [slice_length]
    cases c <;> exact le_trans (by decide) h64
  have hi : ∀ l : Bytes, (l.set 5 (eiData enc.flip)).eraseIdx 5 = l.eraseIdx 5 := fun l => List.eraseIdx_set_eq
  have hid : (Ehdr.load enc f c).ident = slice f 0 16 := by cases c <;> rfl
  unfold Ehdr.normal Ehdr.read
  rw [Ehdr.load_flipped ht.ehdr, hp, ← load_reverse_eq_iff host hl]
  simp only [Ehdr.mk.injEq, true_and, and_true, ht.ident, hi, hid]

end

/-! ## The iteration -/

section
variable {host : Endian} {c : Class} {f f' : Bytes} {e e' : Ehdr c}

theorem findStrtab_congr : ∀ (num off : Nat),
    (∀ i, i < num → elfShdr host e.ident f (off + i * c.shdrSize) c = elfShdr host e'.ident f' (off + i * c.shdrSize) c) →
      findStrtab host f e num off = findStrtab host f' e' num off
  | 0, _, _ => rfl
  | num + 1, off, h => by
    have h0 := h 0 (Nat.succ_pos num)
    rw [Nat.zero_mul, Nat.add_zero] at h0
    have ih := findStrtab_congr num (off + c.shdrSize) fun i hi => by
      have := h (i + 1) (Nat.succ_lt_succ hi)
      rwa [Nat.succ_mul, Nat.add_comm (i * c.shdrSize), ← Nat.add_assoc] at this
    unfold findStrtab
    rw [h0, ih]

theorem findStrtab_found : ∀ {num off : Nat} {strtab : Nat × Nat}, findStrtab host f e num off = .ok strtab →
    strtab.2 ≠ 0 → ∃ i, i < num ∧ ∃ s, elfShdr host e.ident f (off + i * c.shdrSize) c = .ok s ∧
      s.type = shtStrtab ∧ strtab = (s.size.toNat, s.offset.toNat)
  | 0, _, _, h, h0 => by cases h; exact absurd rfl h0
  | num + 1, off, strtab, h, h0 => by
    unfold findStrtab at h
    cases hs : elfShdr host e.ident f off c with
    | error x => rw [hs] at h; cases h
    | ok s =>
      rw [hs] at h
      by_cases hty : s.type = shtStrtab
      · refine ⟨0, Nat.succ_pos num, s, by rwa [Nat.zero_mul, Nat.add_zero], hty, ?_⟩
        replace h : (if s.type ≠ shtStrtab then _ else _) = Except.ok strtab := h
        rw [if_neg (not_not_intro hty)] at h
        exact (Except.ok.inj h).symm
      · replace h : (if s.type ≠ shtStrtab then _ else _) = Except.ok strtab := h
        rw [if_pos hty] at h
        obtain ⟨i, hi, t, ht, hrest⟩ := findStrtab_found h h0
        refine ⟨i + 1, Nat.succ_lt_succ hi, t, ?_, hrest⟩
        rwa [Nat.succ_mul, Nat.add_comm (i * c.shdrSize), ← Nat.add_assoc]

variable {dtag : BitVec 32} {σ : Type} {callback : σ → Arg c → σ × Int} {strtab : Nat × Nat}

theorem dynLoop_congr : ∀ (dyn : List (Dyn c)) (s : σ) (ret : Int),
    (∀ d ∈ dyn, isString (d.tag.setWidth 32) →
      pread f (strRange strtab d).2 (strRange strtab d).1 = pread f' (strRange strtab d).2 (strRange strtab d).1) →
    dynLoop f dtag callback strtab dyn s ret = dynLoop f' dtag callback strtab dyn s ret
  | [], _, _, _ => rfl
  | d :: dyn, s, ret, h => by
    have ih := fun s ret => dynLoop_congr dyn s ret fun d' hd' => h d' (List.mem_cons_of_mem _ hd')
    unfold dynLoop
    by_cases htag : d.tag.setWidth 32 = dtag
    · rw [if_neg (not_not_intro htag), if_neg (not_not_intro htag)]
      by_cases hstr : isString dtag = true
      · have hd := h d List.mem_cons_self (by rw [htag]; exact hstr)
        simp only [hstr, Bool.not_true, Bool.false_eq_true, if_false, hd, ih]
      · simp only [hstr, Bool.not_false, if_true, ih]
    · rw [if_pos htag, if_pos htag, ih]

theorem phdrLoop_congr : ∀ (num off : Nat) (s : σ) (ret : Int),
    (∀ i, i < num → elfPhdr host e.ident f (off + i * c.phdrSize) c = elfPhdr host e'.ident f' (off + i * c.phdrSize) c) →
    (∀ i, i < num → ∀ p, elfPhdr host e.ident f (off + i * c.phdrSize) c = .ok p → p.type = ptDynamic →
      p.filesz.toNat ≤ c.dynCap →
        elfDyn host e.ident f p.filesz.toNat p.offset.toNat c = elfDyn host e'.ident f' p.filesz.toNat p.offset.toNat c ∧
        ∀ dyn, elfDyn host e.ident f p.filesz.toNat p.offset.toNat c = .ok dyn → ∀ d ∈ dyn,
          isString (d.tag.setWidth 32) → pread f (strRange strtab d).2 (strRange strtab d).1 =
            pread f' (strRange strtab d).2 (strRange strtab d).1) →
    phdrLoop host f e dtag callback strtab num off s ret = phdrLoop host f' e' dtag callback strtab num off s ret
  | 0, _, _, _, _, _ => rfl
  | num + 1, off, s, ret, hp, hd => by
    have h0 := hp 0 (Nat.succ_pos num)
    have hd0 := hd 0 (Nat.succ_pos num)
    rw [Nat.zero_mul, Nat.add_zero] at h0 hd0
    have hoff : ∀ i, off + c.phdrSize + i * c.phdrSize = off + (i + 1) * c.phdrSize := fun i => by
      rw [Nat.succ_mul, Nat.add_comm (i * c.phdrSize), ← Nat.add_assoc]
    have ih := fun s ret => phdrLoop_congr num (off + c.phdrSize) s ret
      (fun i hi => by rw [hoff]; exact hp (i + 1) (Nat.succ_lt_succ hi))
      (fun i hi p => by rw [hoff]; exact hd (i + 1) (Nat.succ_lt_succ hi) p)
    unfold phdrLoop
    rw [← h0]
    cases hph : elfPhdr host e.ident f off c with
    | error x => rfl
    | ok p =>
      simp only [ih]
      by_cases hty : p.type = ptDynamic
      · by_cases hcap : c.dynCap < p.filesz.toNat
        · simp only [hty, hcap, if_true]
        · obtain ⟨hdyn, hstr⟩ := hd0 p hph hty (Nat.not_lt.mp hcap)
          rw [← hdyn]
          cases hdl : elfDyn host e.ident f p.filesz.toNat p.offset.toNat c with
          | error x => rfl
          | ok dyn => simp only [dynLoop_congr dyn s ret (hstr dyn hdl)]
      · simp only [ne_eq, hty, not_false_eq_true, if_true]

end

/-! ## The two files as a whole -/

theorem Ehdr.load_ident (e : Endian) (f : Bytes) (c : Class) : (Ehdr.load e f c).ident = slice f 0 16 := by
  cases c <;> rfl

theorem Shdr.read_eq_load (host e : Endian) (b : Bytes) (c : Class) : (Shdr.read host e b c).type = (Shdr.load e b c).type ∧
    (Shdr.read host e b c).size = (Shdr.load e b c).size ∧ (Shdr.read host e b c).offset = (Shdr.load e b c).offset := by
  cases c <;> exact ⟨rfl, rfl, rfl⟩

theorem preadAll_zero (f f' : Bytes) (off : Nat) : preadAll f 0 off = preadAll f' 0 off := by
  simp only [preadAll, pread, slice, List.take_zero]

section
variable {c : Class} {enc : Endian} {f f' : Bytes} (hf : IsElf c enc f) (ht : Twin c enc f f') (host : Endian)
include hf ht

/-- A dynamic section that does not fit has no entries, or none that is read. -/
theorem dyn_unfit {n off : Nat} (h : ¬ Fits f off n) :
    elfDyn host (slice f 0 16) f n off c = elfDyn host (slice f' 0 16) f' n off c ∧
      ∀ dyn, elfDyn host (slice f 0 16) f n off c = .ok dyn → dyn = [] := by
  rw [elfDyn_eq hf.ident, elfDyn_eq (Twin.isElf hf ht).ident]
  rcases Nat.eq_zero_or_pos n with rfl | hn
  · have hz : ∀ (e : Endian) (b : Bytes), dynRead host e c b 0 = [] := fun e b => by
      unfold dynRead; rw [Nat.zero_div]; rfl
    rw [preadAll_zero f f']
    cases preadAll f' 0 off with
    | error x => exact ⟨rfl, nofun⟩
    | ok b =>
      refine ⟨congrArg Except.ok ((hz _ b).trans (hz _ b).symm), fun dyn hd => ?_⟩
      rw [← Except.ok.inj hd]
      exact hz _ b
  · rcases preadAll_cases ht.length_eq hn off with hfit | ⟨x, hx, hx'⟩
    · exact absurd hfit h
    · rw [hx, hx']
      exact ⟨rfl, nofun⟩

/-- Palindromes apart, an entry is read in the order of the file. -/
theorem dynEntry_eq (hpal : Palindromes c enc f) {p : Phdr c} (hp : HasDyn c enc f p) {dyn : List (Dyn c)}
    (hd : elfDyn host (slice f 0 16) f p.filesz.toNat p.offset.toNat c = .ok dyn) {d : Dyn c} (hmem : d ∈ dyn) :
    ∃ j, j < p.filesz.toNat / c.dynSize ∧ d = dynAt c enc f p j := by
  rw [elfDyn_eq hf.ident, preadAll_fits hp.2.2.2] at hd
  rw [← Except.ok.inj hd] at hmem
  obtain ⟨j, hj, rfl⟩ := List.mem_map.mp hmem
  have hj := List.mem_range.mp hj
  have hfit : j * c.dynSize + c.dynSize ≤ p.filesz.toNat := by
    calc j * c.dynSize + c.dynSize = (j + 1) * c.dynSize := (Nat.succ_mul j c.dynSize).symm
      _ ≤ p.filesz.toNat / c.dynSize * c.dynSize := Nat.mul_le_mul_right _ hj
      _ ≤ p.filesz.toNat := Nat.div_mul_le_self _ _
  refine ⟨j, hj, ?_⟩
  rw [slice_slice f hfit]
  unfold dynAt
  rcases Nat.eq_zero_or_pos j with rfl | h0
  · rw [if_pos rfl]
  · rw [if_neg (Nat.ne_of_gt h0)]
    rcases enc.eq_or_flip host with rfl | rfl
    · rfl
    · have hlen := hp.2.2.2.2
      rw [(Dyn.load_eq_iff (by omega) (ht.dyn p hp j hj)).mpr (hpal.dyn p hp j h0 hj)]
      exact Dyn.load_flipped (ht.dyn p hp j hj)

theorem read_phdrAt {i : Nat} (hi : i < (Ehdr.load enc f c).phnum.toNat) {p : Phdr c}
    (hp : elfPhdr host (slice f 0 16) f (phdrOff c enc f i) c = .ok p) : HasPhdr c enc f i ∧ p = phdrAt c enc f i := by
  rw [elfPhdr_eq hf.ident] at hp
  rcases preadAll_cases ht.length_eq (n := c.phdrSize) (by cases c <;> decide) (phdrOff c enc f i) with h | ⟨x, hx, -⟩
  · rw [preadAll_fits h] at hp
    exact ⟨⟨hi, h⟩, (Except.ok.inj hp).symm⟩
  · rw [hx] at hp; cases hp

theorem string_same (hpal : Palindromes c enc f) {i : Nat} (hi : i < (Ehdr.load enc f c).shnum.toNat) {s : Shdr c}
    (hs : elfShdr host (slice f 0 16) f (shdrOff c enc f i) c = .ok s) (hty : s.type = shtStrtab) {p : Phdr c}
    (hp : HasDyn c enc f p) {dyn : List (Dyn c)}
    (hd : elfDyn host (slice f 0 16) f p.filesz.toNat p.offset.toNat c = .ok dyn) {d : Dyn c} (hmem : d ∈ dyn)
    (hstr : isString (d.tag.setWidth 32)) :
    pread f (strRange (s.size.toNat, s.offset.toNat) d).2 (strRange (s.size.toNat, s.offset.toNat) d).1 =
      pread f' (strRange (s.size.toNat, s.offset.toNat) d).2 (strRange (s.size.toNat, s.offset.toNat) d).1 := by
  rw [elfShdr_eq hf.ident] at hs
  rcases preadAll_cases ht.length_eq (n := c.shdrSize) (by cases c <;> decide) (shdrOff c enc f i) with h | ⟨x, hx, -⟩
  · rw [preadAll_fits h] at hs
    have hs := Except.ok.inj hs
    obtain ⟨h1, h2, h3⟩ := Shdr.read_eq_load host enc (slice f (shdrOff c enc f i) c.shdrSize) c
    obtain ⟨j, hj, rfl⟩ := dynEntry_eq hf ht host hpal hp hd hmem
    rw [← hs, h1] at hty
    rw [← hs, h2, h3]
    have hsame := ht.strings i ⟨hi, h⟩ hty p hp j hj hstr
    unfold pread
    split
    · exact congrArg some hsame.symm
    · rfl
  · rw [hx] at hs; cases hs

theorem dyns_same (hpal : Palindromes c enc f) {i : Nat} (hi : i < (Ehdr.load enc f c).phnum.toNat) {p : Phdr c}
    (hp : elfPhdr host (slice f 0 16) f (phdrOff c enc f i) c = .ok p) (hty : p.type = ptDynamic)
    (hcap : p.filesz.toNat ≤ c.dynCap) : elfDyn host (slice f 0 16) f p.filesz.toNat p.offset.toNat c =
      elfDyn host (slice f' 0 16) f' p.filesz.toNat p.offset.toNat c := by
  by_cases hfit : Fits f p.offset.toNat p.filesz.toNat
  · obtain ⟨hi', hpi⟩ := read_phdrAt hf ht host hi hp
    have hd : HasDyn c enc f p := ⟨⟨i, hi', hpi⟩, hty, hcap, hfit⟩
    exact (dyn_same_iff hf ht host hd).mpr (hpal.dyn p hd)
  · exact (dyn_unfit hf ht host hfit).1

theorem iterate_same (hpal : Palindromes c enc f) {e e' : Ehdr c} (he : e.ident = slice f 0 16)
    (he' : e'.ident = slice f' 0 16) (hph : e.phnum = (Ehdr.load enc f c).phnum ∧ e.phoff = (Ehdr.load enc f c).phoff)
    (hsh : e.shnum = (Ehdr.load enc f c).shnum ∧ e.shoff = (Ehdr.load enc f c).shoff)
    (hph' : e'.phnum = e.phnum ∧ e'.phoff = e.phoff) (hsh' : e'.shnum = e.shnum ∧ e'.shoff = e.shoff)
    (dtag : BitVec 32) {σ : Type} (callback : σ → Arg c → σ × Int) (s : σ) :
    elfIterateEhdr host f e dtag callback s = elfIterateEhdr host f' e' dtag callback s := by
  have hshdr : ∀ i, i < (Ehdr.load enc f c).shnum.toNat → elfShdr host e.ident f (shdrOff c enc f i) c =
      elfShdr host e'.ident f' (shdrOff c enc f i) c := by
    intro i hi
    rw [he, he']
    exact (shdr_same_iff hf ht host hi).mpr fun hc hh => hpal.info hc i hh
  unfold elfIterateEhdr
  rw [hph'.1, hph'.2, hsh'.1, hsh'.2, hph.1, hph.2, hsh.1, hsh.2, ← findStrtab_congr _ _ hshdr]
  cases hfs : findStrtab host f e _ _ with
  | error x => rfl
  | ok strtab =>
    show (if strtab.2 = 0 then _ else _) = if strtab.2 = 0 then _ else _
    by_cases h0 : strtab.2 = 0
    · rw [if_pos h0, if_pos h0]
    · rw [if_neg h0, if_neg h0]
      obtain ⟨k, hk, sh, hsh, hty, rfl⟩ := findStrtab_found hfs h0
      refine phdrLoop_congr _ _ s (-1) (fun i hi => ?_) fun i hi p hp hpty hcap => ?_
      · rw [he, he']
        exact phdr_same hf ht host hi
      · rw [he, he'] at *
        refine ⟨dyns_same hf ht host hpal hi hp hpty hcap, fun dyn hd d hmem hstr => ?_⟩
        by_cases hfit : Fits f p.offset.toNat p.filesz.toNat
        · obtain ⟨hi', hpi⟩ := read_phdrAt hf ht host hi hp
          exact string_same hf ht host hpal hk hsh hty ⟨⟨i, hi', hpi⟩, hpty, hcap, hfit⟩ hd hmem hstr
        · rw [(dyn_unfit hf ht host hfit).2 dyn hd] at hmem
          cases hmem

theorem sameRead_iff (h64 : 64 ≤ f.length) :
    SameRead host f f' (Ehdr.read host enc f c) (Ehdr.read host enc.flip f' c) ↔ Palindromes c enc f := by
  have hnormal := normal_same_iff hf ht host h64
  have hid := Ehdr.load_ident enc f c
  have he' : Ehdr.read host enc.flip f' c = { Ehdr.load enc f c with
      ident := slice f' 0 16, shentsize := ByteOrder.load 16 host (slice f' c.phentsizeOff 2) } := by
    unfold Ehdr.read
    rw [Ehdr.load_flipped ht.ehdr]
  have he : Ehdr.read host enc f c = { Ehdr.load enc f c with
      ident := slice f 0 16, shentsize := ByteOrder.load 16 host (slice f c.phentsizeOff 2) } := by
    unfold Ehdr.read
    rw [← hid]
  rw [he', he] at hnormal ⊢
  constructor
  · intro h
    refine ⟨hnormal.mp h.ehdr, fun hc i hi => ?_, fun p hp => ?_⟩
    · exact (shdr_same_iff hf ht host hi.1).mp (h.shdr i hi.1) hc hi
    · obtain ⟨i, hi, hpi⟩ := hp.1
      refine (dyn_same_iff hf ht host hp).mp (h.dyn i hi.1 p ?_ hp.2.1 hp.2.2.1)
      show elfPhdr host (slice f 0 16) f (phdrOff c enc f i) c = _
      rw [elfPhdr_eq hf.ident, preadAll_fits hi.2, hpi]
      rfl
  · intro hpal
    refine ⟨hnormal.mpr hpal.phentsize, fun i hi => phdr_same hf ht host hi,
      fun i hi => (shdr_same_iff hf ht host hi).mpr fun hc hh => hpal.info hc i hh,
      fun i hi p hp hty hcap => dyns_same hf ht host hpal hi hp hty hcap, fun dtag σ callback s => ?_⟩
    refine iterate_same hf ht host hpal ?_ ?_ ?_ ?_ ?_ ?_ dtag callback s
    · rfl
    · rfl
    all_goals exact ⟨rfl, rfl⟩

end

def toAny : (c : Class) → Ehdr c → AnyEhdr
  | .elf32, e => .elf32 e
  | .elf64, e => .elf64 e

theorem elfEhdr_eq {c : Class} {enc : Endian} {f : Bytes} (hf : IsElf c enc f) (host : Endian) (h64 : 64 ≤ f.length) :
    elfEhdr host f = .ok (toAny c (Ehdr.read host enc f c)) := by
  have hlen : (slice f 0 64).length = 64 := slice_length (by omega)
  have hd : (slice f 0 64)[5]? = some (eiData enc) := (slice_getElem? f (by decide)).trans hf.data
  have hc : (slice f 0 64)[4]? = some c.byte := (slice_getElem? f (by decide)).trans hf.cls
  have hm : slice (slice f 0 64) 0 4 = elfMag := by rw [slice_slice f (by decide)]; exact hf.magic
  unfold elfEhdr
  rw [preadAll_fits ⟨by decide, by omega⟩]
  show (if slice (slice f 0 64) 0 4 ≠ elfMag then _ else _) = _
  rw [if_neg (not_not_intro hm), hc]
  cases c with
  | elf32 =>
    rw [if_pos rfl, elf32Ehdr_eq hlen hd, Ehdr.read_slice]
    rfl
  | elf64 =>
    rw [if_neg (by decide), if_pos rfl, elf64Ehdr_eq hlen hd, Ehdr.read_slice]
    rfl

theorem elfEhdr_short {f : Bytes} (host : Endian) (h64 : f.length < 64) : elfEhdr host f = .error Errno.EIO := by
  have hs : (slice f 0 64).length < 64 := by
    unfold slice
    rw [List.length_take, List.drop_zero]
    omega
  have hp : preadAll f 64 0 = .error Errno.EIO := by
    unfold preadAll pread
    rw [if_pos (by decide)]
    simp only [if_pos hs]
  unfold elfEhdr
  rw [hp]
  rfl

/-- **Byte-order independence.** On any host, an image of the 64 bytes that are
read first, or more, reads like its twin exactly when the fields that are not
converted are palindromes. -/
theorem byteOrder_independent_iff (c : Class) (enc : Endian) (f f' : Bytes) (hf : IsElf c enc f) (ht : Twin c enc f f')
    (host : Endian) : SameImage host f f' ↔ (64 ≤ f.length → Palindromes c enc f) := by
  unfold SameImage
  by_cases h64 : 64 ≤ f.length
  · rw [elfEhdr_eq hf host h64, elfEhdr_eq (Twin.isElf hf ht) host (by rw [ht.length_eq]; exact h64)]
    have h := sameRead_iff hf ht host h64
    cases c <;> exact h.trans ⟨fun hp _ => hp, fun hp => hp h64⟩
  · have hlt := Nat.not_le.mp h64
    rw [elfEhdr_short host hlt, elfEhdr_short host (by rw [ht.length_eq]; exact hlt)]
    exact ⟨fun _ hh => absurd hh h64, fun _ => rfl⟩

def objectFile (e : Endian) (phentsize : Byte) : Bytes :=
  let half (x : Byte) : Bytes := match e with
    | .little => [x, 0]
    | .big => [0, x]
  let word (x : Byte) : Bytes := match e with
    | .little => [x, 0, 0, 0]
    | .big => [0, 0, 0, x]
  elfMag ++ [2, eiData e, 1, 0, 0, 0, 0, 0, 0, 0, 0, 0] ++ half 1 ++ half 0x3e ++ word 1 ++ List.replicate 28 0 ++
    half 64 ++ half phentsize ++ half 0 ++ half 64 ++ half 0 ++ half 0

theorem objectFile_isElf (e : Endian) (x : Byte) : IsElf .elf64 e (objectFile e x) := by
  cases e <;> exact ⟨rfl, rfl, rfl⟩

theorem objectFile_twin (x : Byte) : Twin .elf64 .little (objectFile .little x) (objectFile .big x) where
  length_eq := rfl
  ident := rfl
  ehdr r hr := by
    simp only [Class.ehdrFields, List.mem_cons, List.not_mem_nil, or_false] at hr
    rcases hr with rfl | rfl | rfl | rfl | rfl | rfl | rfl | rfl | rfl | rfl | rfl | rfl | rfl <;> rfl
  phdr i hi := absurd hi.1 (Nat.not_lt_zero i)
  shdr i hi := absurd hi.1 (Nat.not_lt_zero i)
  dyn p hp := by
    obtain ⟨i, hi, -⟩ := hp.1
    exact absurd hi.1 (Nat.not_lt_zero i)
  strings i hi := absurd hi.1 (Nat.not_lt_zero i)

def numField (e : Endian) (n : Nat) (x : Byte) : Bytes :=
  match e with
  | .little => x :: List.replicate (n - 1) 0
  | .big => List.replicate (n - 1) 0 ++ [x]

def sharedFile (e : Endian) : Bytes :=
  elfMag ++ [2, eiData e, 1] ++ List.replicate 9 0 ++ numField e 2 3 ++ numField e 2 0x3e ++ numField e 4 1 ++ numField e 8 0 ++
    numField e 8 64 ++ numField e 8 120 ++ numField e 4 0 ++ numField e 2 64 ++ numField e 2 0 ++ numField e 2 1 ++
    numField e 2 64 ++ numField e 2 1 ++ numField e 2 0 ++
    (numField e 4 2 ++ numField e 4 6 ++ numField e 8 184 ++ numField e 8 0 ++ numField e 8 0 ++ numField e 8 32 ++
      numField e 8 32 ++ numField e 8 8) ++
    (numField e 4 1 ++ numField e 4 3 ++ numField e 8 0 ++ numField e 8 0 ++ numField e 8 216 ++ numField e 8 4 ++
      numField e 4 0 ++ numField e 4 0 ++ numField e 8 1 ++ numField e 8 0) ++
    (numField e 8 1 ++ numField e 8 1) ++ (numField e 8 0 ++ numField e 8 0) ++ [0, 0x6c, 0x63, 0]

theorem sharedFile_isElf (e : Endian) : IsElf .elf64 e (sharedFile e) := by
  cases e <;> exact ⟨rfl, rfl, rfl⟩

theorem sharedFile_phdr {i : Nat} (h : HasPhdr .elf64 .little (sharedFile .little) i) : i = 0 := by
  have hnum : (Ehdr.load .little (sharedFile .little) .elf64).phnum.toNat = 1 := by decide
  have hlt := h.1
  omega

theorem sharedFile_shdr {i : Nat} (h : HasShdr .elf64 .little (sharedFile .little) i) : i = 0 := by
  have hnum : (Ehdr.load .little (sharedFile .little) .elf64).shnum.toNat = 1 := by decide
  have hlt := h.1
  omega

theorem sharedFile_dyn {p : Phdr .elf64} (h : HasDyn .elf64 .little (sharedFile .little) p) :
    p = phdrAt .elf64 .little (sharedFile .little) 0 ∧ p.offset.toNat = 184 ∧ p.filesz.toNat / Class.elf64.dynSize = 2 := by
  obtain ⟨⟨i, hi, rfl⟩, -⟩ := h
  rw [sharedFile_phdr hi]
  exact ⟨rfl, by decide, by decide⟩

theorem sharedFile_twin : Twin .elf64 .little (sharedFile .little) (sharedFile .big) where
  length_eq := rfl
  ident := rfl
  ehdr := by decide
  phdr i hi := by
    rw [sharedFile_phdr hi]
    decide
  shdr i hi := by
    rw [sharedFile_shdr hi]
    decide
  dyn p hp j hj := by
    obtain ⟨-, hoff, hnum⟩ := sharedFile_dyn hp
    rw [hnum] at hj
    rw [hoff]
    interval_cases j <;> decide
  strings i hi _ p hp j hj _ := by
    obtain ⟨rfl, -, hnum⟩ := sharedFile_dyn hp
    rw [hnum] at hj
    rw [sharedFile_shdr hi]
    interval_cases j <;> decide

theorem sharedFile_palindromes : Palindromes .elf64 .little (sharedFile .little) where
  phentsize := rfl
  info h := by cases h
  dyn p hp j h0 hj := by
    obtain ⟨-, hoff, hnum⟩ := sharedFile_dyn hp
    rw [hnum] at hj
    obtain rfl : j = 1 := by omega
    rw [hoff]
    decide

theorem sharedFile_same : HasDyn .elf64 .little (sharedFile .little) (phdrAt .elf64 .little (sharedFile .little) 0) ∧
    SameImage .little (sharedFile .little) (sharedFile .big) := by
  refine ⟨⟨⟨0, ⟨by decide, by decide +kernel⟩, rfl⟩, by decide, by decide, by decide +kernel⟩, ?_⟩
  exact (byteOrder_independent_iff .elf64 .little _ _ (sharedFile_isElf _) sharedFile_twin .little).mpr fun _ => sharedFile_palindromes

/-- With an `e_phentsize` of 56, `e_shentsize` is 56 in one file and 0x3800 in its twin. -/
theorem objectFile_differs : IsElf .elf64 .little (objectFile .little 56) ∧
    Twin .elf64 .little (objectFile .little 56) (objectFile .big 56) ∧
    ¬ SameImage .little (objectFile .little 56) (objectFile .big 56) := by
  refine ⟨objectFile_isElf _ 56, objectFile_twin 56, fun h => ?_⟩
  have hs := congrArg Ehdr.shentsize (SameRead.ehdr h)
  exact absurd hs (by decide)

end Iamroot
