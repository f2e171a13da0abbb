import Mathlib.Tactic.IntervalCases
import Iamroot.Elf

/-!
# Which order the ELF reader reads in

The swaps of `dso.c` reverse the bytes of a word, so a field that is converted
is read in the order that `EI_DATA` names, whatever the host's. Three are not
converted, or converted twice, and stay in the order of the host:
`e_shentsize`, the `sh_info` of 32-bit files, and every dynamic entry but the
first.
-/

namespace Iamroot

open ByteOrder

/-! ## The swaps reverse the bytes -/

def cat16 (a b : BitVec 8) : BitVec 16 := a ++ b

def cat32 (a b : BitVec 16) : BitVec 32 := a ++ b

def cat64 (a b : BitVec 32) : BitVec 64 := a ++ b

theorem cat16_getLsbD (a b : BitVec 8) (i : Nat) :
    (cat16 a b).getLsbD i = if i < 8 then b.getLsbD i else a.getLsbD (i - 8) := by
  unfold cat16; exact BitVec.getLsbD_append

theorem cat32_getLsbD (a b : BitVec 16) (i : Nat) :
    (cat32 a b).getLsbD i = if i < 16 then b.getLsbD i else a.getLsbD (i - 16) := by
  unfold cat32; exact BitVec.getLsbD_append

theorem cat64_getLsbD (a b : BitVec 32) (i : Nat) :
    (cat64 a b).getLsbD i = if i < 32 then b.getLsbD i else a.getLsbD (i - 32) := by
  unfold cat64; exact BitVec.getLsbD_append

theorem bswap16_cat (a b : BitVec 8) : bswap16 (cat16 a b) = cat16 b a := by
  apply BitVec.eq_of_getLsbD_eq
  intro i hi
  unfold bswap16
  simp only [BitVec.getLsbD_or, BitVec.getLsbD_shiftLeft, BitVec.getLsbD_ushiftRight, cat16_getLsbD]
  interval_cases i <;> simp

theorem bswap32_cat (a b : BitVec 16) : bswap32 (cat32 a b) = cat32 (bswap16 b) (bswap16 a) := by
  apply BitVec.eq_of_getLsbD_eq
  intro i hi
  unfold bswap32 bswap16
  simp only [BitVec.getLsbD_or, BitVec.getLsbD_and, BitVec.getLsbD_shiftLeft, BitVec.getLsbD_ushiftRight,
    cat32_getLsbD]
  interval_cases i <;> simp

theorem bswap64_cat (a b : BitVec 32) : bswap64 (cat64 a b) = cat64 (bswap32 b) (bswap32 a) := by
  have hlow : (cat64 a b).setWidth 32 = b := by
    apply BitVec.eq_of_getLsbD_eq
    intro i hi
    simp [cat64_getLsbD, hi]
  have hhigh : (cat64 a b >>> 32).setWidth 32 = a := by
    apply BitVec.eq_of_getLsbD_eq
    intro i hi
    simp [cat64_getLsbD, hi]
  apply BitVec.eq_of_getLsbD_eq
  intro i hi
  unfold bswap64
  rw [hlow, hhigh, cat64_getLsbD, BitVec.getLsbD_or, BitVec.getLsbD_shiftLeft, BitVec.getLsbD_setWidth,
    BitVec.getLsbD_setWidth]
  by_cases h : i < 32
  · simp [h, hi]
  · have hz : (bswap32 a).getLsbD i = false := BitVec.getLsbD_of_ge _ _ (Nat.not_lt.mp h)
    have h32 : i - 32 < 64 := by omega
    simp [h, hi, hz, h32]

/-- A swap of two halves reverses the bytes when the swap of a half does. -/
theorem reverse_of_halves {w v n : Nat} {g : BitVec w → BitVec w → BitVec v} {k : BitVec w → BitVec w}
    {whole : BitVec v → BitVec v}
    (hload : ∀ l l' : Bytes, l.length = n → l'.length = n →
      load v .little (l ++ l') = g (load w .little l') (load w .little l))
    (hcat : ∀ x y, whole (g x y) = g (k y) (k x))
    (hhalf : ∀ l : Bytes, l.length = n → k (load w .little l) = load w .little l.reverse)
    {b : Bytes} (hb : b.length = n + n) : whole (load v .little b) = load v .little b.reverse := by
  have h1 : (b.take n).length = n := by rw [List.length_take, hb]; omega
  have h2 : (b.drop n).length = n := by rw [List.length_drop, hb]; omega
  have hr : b.reverse = (b.drop n).reverse ++ (b.take n).reverse := by
    rw [← List.reverse_append, List.take_append_drop]
  rw [hr, hload _ _ (by rw [List.length_reverse, h2]) (by rw [List.length_reverse, h1]), ← hhalf _ h1, ← hhalf _ h2,
    ← hcat, ← hload _ _ h1 h2, List.take_append_drop]

theorem bswap16_little {b : Bytes} (h : b.length = 2) : bswap16 (load 16 .little b) = load 16 .little b.reverse := by
  refine reverse_of_halves (n := 1) (g := cat16) (k := id) (fun l l' hl hl' => ?_) bswap16_cat (fun l hl => ?_) h
  · exact load_cat (by rw [hl]) (by rw [hl'])
  · obtain ⟨x, rfl⟩ := List.length_eq_one_iff.mp hl
    rfl

theorem bswap32_little {b : Bytes} (h : b.length = 4) : bswap32 (load 32 .little b) = load 32 .little b.reverse :=
  reverse_of_halves (g := cat32) (fun _ _ hl hl' => load_cat (by rw [hl]) (by rw [hl'])) bswap32_cat
    (fun _ => bswap16_little) h

theorem bswap64_little {b : Bytes} (h : b.length = 8) : bswap64 (load 64 .little b) = load 64 .little b.reverse :=
  reverse_of_halves (g := cat64) (fun _ _ hl hl' => load_cat (by rw [hl]) (by rw [hl'])) bswap64_cat
    (fun _ => bswap32_little) h

/-! ## A converted field is read in the order of the file -/

def eiData : Endian → Byte
  | .little => 1
  | .big => 2

theorem elfSwap_eq {host enc : Endian} {ident : Bytes} (h : ident[5]? = some (eiData enc)) :
    elfSwap host ident = (host != enc) := by
  unfold elfSwap
  rw [h]
  cases host <;> cases enc <;> rfl

theorem flip_of_little {w n : Nat} {swap : BitVec w → BitVec w}
    (h : ∀ b : Bytes, b.length = n → swap (load w .little b) = load w .little b.reverse) (e : Endian) {b : Bytes}
    (hb : b.length = n) : swap (load w e b) = load w e.flip b := by
  cases e with
  | little => rw [h b hb, load_reverse]
  | big =>
    rw [show load w .big b = load w .little b.reverse from (load_reverse w .little b).symm,
      h _ (by rw [List.length_reverse, hb]), List.reverse_reverse]
    rfl

theorem bswap16_load (e : Endian) {b : Bytes} (h : b.length = 2) : bswap16 (load 16 e b) = load 16 e.flip b :=
  flip_of_little (fun _ => bswap16_little) e h

theorem bswap32_load (e : Endian) {b : Bytes} (h : b.length = 4) : bswap32 (load 32 e b) = load 32 e.flip b :=
  flip_of_little (fun _ => bswap32_little) e h

theorem bswap64_load (e : Endian) {b : Bytes} (h : b.length = 8) : bswap64 (load 64 e b) = load 64 e.flip b :=
  flip_of_little (fun _ => bswap64_little) e h

theorem slice_length {f : Bytes} {off n : Nat} (h : off + n ≤ f.length) : (slice f off n).length = n := by
  unfold slice
  rw [List.length_take, List.length_drop]
  omega

theorem slice_slice (f : Bytes) {off n o w : Nat} (h : o + w ≤ n) : slice (slice f off n) o w = slice f (off + o) w := by
  unfold slice
  rw [List.drop_take, List.drop_drop, List.take_take, Nat.min_eq_left (by omega)]

theorem preadAll_ok {f b : Bytes} {n off : Nat} (h : preadAll f n off = .ok b) : b = slice f off n ∧ b.length = n := by
  unfold preadAll pread at h
  split at h
  · cases h
  · rename_i b' hb
    split at hb
    · cases hb
      split at h
      · cases h
      · rename_i hlen
        cases h
        refine ⟨rfl, Nat.le_antisymm ?_ (Nat.not_lt.mp hlen)⟩
        unfold slice
        exact List.length_take_le _ _
    · cases hb

theorem bswap16_slice (e : Endian) {b : Bytes} {o : Nat} (h : o + 2 ≤ b.length) :
    bswap16 (load 16 e (slice b o 2)) = load 16 e.flip (slice b o 2) := bswap16_load e (slice_length h)

theorem bswap32_slice (e : Endian) {b : Bytes} {o : Nat} (h : o + 4 ≤ b.length) :
    bswap32 (load 32 e (slice b o 4)) = load 32 e.flip (slice b o 4) := bswap32_load e (slice_length h)

theorem bswap64_slice (e : Endian) {b : Bytes} {o : Nat} (h : o + 8 ≤ b.length) :
    bswap64 (load 64 e (slice b o 8)) = load 64 e.flip (slice b o 8) := bswap64_load e (slice_length h)

section
variable {host enc : Endian} {ident : Bytes} (hid : ident[5]? = some (eiData enc)) (f : Bytes) (off : Nat)
include hid

/-- A structure that is read and then converted is the structure read in the order of the file. -/
theorem read_eq {α : Type} (n : Nat) (raw : Endian → Bytes → α) {k : Bytes → α}
    (h : ∀ b : Bytes, b.length = n → k b = raw host.flip b) :
    (do
      let b ← preadAll f n off
      if !elfSwap host ident then return raw host b
      return k b) = (preadAll f n off).map (raw enc) := by
  cases hb : preadAll f n off with
  | error e => rfl
  | ok b =>
    rw [elfSwap_eq hid]
    rcases host.eq_or_flip enc with rfl | rfl
    · rw [bne_self_eq_false]; rfl
    · have hne : (host != host.flip) = true := by cases host <;> rfl
      rw [hne]
      exact congrArg Except.ok (h b (preadAll_ok hb).2)

theorem elfPhdr_eq (c : Class) :
    elfPhdr host ident f off c = (preadAll f c.phdrSize off).map fun b => Phdr.load enc b c := by
  cases c with
  | elf32 =>
    exact read_eq hid f off 32 (fun e b => Phdr.load e b .elf32) fun b hl => by
      simp (disch := omega) only [Phdr.load, bswap32_slice]
  | elf64 =>
    exact read_eq hid f off 56 (fun e b => Phdr.load e b .elf64) fun b hl => by
      simp (disch := omega) only [Phdr.load, bswap32_slice, bswap64_slice]

end

/-- What is read of a section header: the `sh_info` of 32-bit files stays in the order of the host. -/
def Shdr.read (host e : Endian) (b : Bytes) : (c : Class) → Shdr c
  | .elf32 => { Shdr.load e b .elf32 with info := ByteOrder.load 32 host (slice b 28 4) }
  | .elf64 => Shdr.load e b .elf64

/-- What is read of a dynamic section: all entries but the first stay in the order of the host. -/
def dynRead (host e : Endian) (c : Class) (b : Bytes) (n : Nat) : List (Dyn c) :=
  (List.range (n / c.dynSize)).map fun j => Dyn.load (if j = 0 then e else host) (slice b (j * c.dynSize) c.dynSize) c

theorem dynRead_self (host : Endian) (c : Class) (b : Bytes) (n : Nat) : dynRead host host c b n = dynLoad host c b n := by
  unfold dynRead dynLoad
  simp only [ite_self]

theorem dynRead_modifyHead (host e : Endian) (c : Class) (b : Bytes) (n : Nat) {conv : Dyn c → Dyn c}
    (h : 0 < n / c.dynSize → conv (Dyn.load host (slice b 0 c.dynSize) c) = Dyn.load e (slice b 0 c.dynSize) c) :
    (dynLoad host c b n).modifyHead conv = dynRead host e c b n := by
  unfold dynRead dynLoad
  cases hk : n / c.dynSize with
  | zero => rfl
  | succ k =>
    rw [List.range_succ_eq_map, List.map_cons, List.map_cons, List.modifyHead_cons, if_pos rfl, Nat.zero_mul,
      h (by rw [hk]; exact Nat.succ_pos k), List.map_map, List.map_map]
    rfl

section
variable {host enc : Endian} {ident : Bytes} (hid : ident[5]? = some (eiData enc)) (f : Bytes) (off : Nat)
include hid

theorem elfShdr_eq (c : Class) :
    elfShdr host ident f off c = (preadAll f c.shdrSize off).map fun b => Shdr.read host enc b c := by
  cases c with
  | elf32 =>
    exact read_eq hid f off 40 (fun e b => Shdr.read host e b .elf32) fun b hl => by
      simp (disch := omega) only [Shdr.read, Shdr.load, bswap32_slice]
  | elf64 =>
    exact read_eq hid f off 64 (fun e b => Shdr.read host e b .elf64) fun b hl => by
      simp (disch := omega) only [Shdr.read, Shdr.load, bswap32_slice, bswap64_slice]

theorem elfDyn_eq (c : Class) (n : Nat) :
    elfDyn host ident f n off c = (preadAll f n off).map fun b => dynRead host enc c b n := by
  cases c with
  | elf32 =>
    have h := read_eq hid f off n (fun e b => dynRead host e .elf32 b n)
      (k := fun b => (dynLoad host .elf32 b n).modifyHead fun d => { tag := bswap32 d.tag, un := bswap32 d.un })
      fun b hl => dynRead_modifyHead host host.flip .elf32 b n fun hn => by
        have h8 : 8 ≤ n := (Nat.div_pos_iff.mp hn).2
        have hs : (slice b 0 Class.elf32.dynSize).length = 8 := slice_length (by rw [hl, Class.dynSize]; omega)
        simp (disch := omega) only [Dyn.load, bswap32_slice]
    simp only [dynRead_self] at h
    exact h
  | elf64 =>
    have h := read_eq hid f off n (fun e b => dynRead host e .elf64 b n)
      (k := fun b => (dynLoad host .elf64 b n).modifyHead fun d => { tag := bswap64 d.tag, un := bswap64 d.un })
      fun b hl => dynRead_modifyHead host host.flip .elf64 b n fun hn => by
        have h8 : 16 ≤ n := (Nat.div_pos_iff.mp hn).2
        have hs : (slice b 0 Class.elf64.dynSize).length = 16 := slice_length (by rw [hl, Class.dynSize]; omega)
        simp (disch := omega) only [Dyn.load, bswap64_slice]
    simp only [dynRead_self] at h
    exact h

end

/-! ## The header -/

def Class.phentsizeOff : Class → Nat
  | .elf32 => 42
  | .elf64 => 54

/-- What is read of the header: `e_shentsize` is `e_phentsize` in the order of the host. -/
def Ehdr.read (host e : Endian) (b : Bytes) (c : Class) : Ehdr c :=
  { Ehdr.load e b c with shentsize := ByteOrder.load 16 host (slice b c.phentsizeOff 2) }

theorem slice_getElem? (f : Bytes) {n i : Nat} (h : i < n) : (slice f 0 n)[i]? = f[i]? := by
  unfold slice
  rw [List.drop_zero, List.getElem?_take_of_lt h]

section
variable {host enc : Endian} {b : Bytes} (hb : b.length = 64) (hd : b[5]? = some (eiData enc))
include hb hd

theorem elf32Ehdr_eq : elf32Ehdr host b = Ehdr.read host enc b .elf32 := by
  have hid : (slice b 0 16)[5]? = some (eiData enc) := (slice_getElem? b (by decide)).trans hd
  unfold elf32Ehdr Ehdr.read elfHalf elfWord elf32Address Class.phentsizeOff Ehdr.load
  simp only [elfSwap_eq hid]
  rcases host.eq_or_flip enc with rfl | rfl
  · rw [bne_self_eq_false]; rfl
  · have hne : (host != host.flip) = true := by cases host <;> rfl
    simp (disch := omega) only [hne, Bool.not_true, Bool.false_eq_true, if_false, bswap16_slice, bswap32_slice,
      Endian.flip_flip]

theorem elf64Ehdr_eq : elf64Ehdr host b = Ehdr.read host enc b .elf64 := by
  have hid : (slice b 0 16)[5]? = some (eiData enc) := (slice_getElem? b (by decide)).trans hd
  unfold elf64Ehdr Ehdr.read elfHalf elfWord elf64Address Class.phentsizeOff Ehdr.load
  simp only [elfSwap_eq hid]
  rcases host.eq_or_flip enc with rfl | rfl
  · rw [bne_self_eq_false]; rfl
  · have hne : (host != host.flip) = true := by cases host <;> rfl
    simp (disch := omega) only [hne, Bool.not_true, Bool.false_eq_true, if_false, bswap16_slice, bswap32_slice,
      bswap64_slice, Endian.flip_flip]

end

end Iamroot
