import Iamroot.Twin

/-!
# The strings of the dynamic section

The loader takes the strings of the dynamic entries that come before the first
`DT_NULL` from the table that `DT_STRTAB` names by its address. The reader takes
those of every entry of the segment from the first string table among the
sections. The two agree when that table holds the same strings, and when nothing
after the `DT_NULL` looks like an entry with the tag. In a file of the other byte
order the reader takes other entries, as it converts the first one only.
-/

namespace Iamroot

open ByteOrder

/-! ## The reader -/

def elfIterateSharedObject (host : Endian) (f : Bytes) (dtag : BitVec 32) {σ : Type}
    (callback : (c : Class) → σ → Arg c → σ × Int) (s : σ) : σ × Int :=
  match elfEhdr host f with
  | .error _ => (s, -1)
  | .ok (.elf32 e) =>
    if e.type ≠ 2 ∧ e.type ≠ 3 then (s, -1) else elfIterateEhdr host f e dtag (callback .elf32) s
  | .ok (.elf64 e) =>
    if e.type ≠ 2 ∧ e.type ≠ 3 then (s, -1) else elfIterateEhdr host f e dtag (callback .elf64) s

/-- The string at the start of a buffer, if a NUL ends it there. -/
def strOf (b : Bytes) : Option Bytes := if 0 ∈ b then some (b.takeWhile (· ≠ 0)) else none

def dtNull : Nat := 0

def dtStrtab : Nat := 5

def ptLoad : BitVec 32 := 1

section
variable (c : Class) (enc : Endian) (f : Bytes)

def phdrs : List (Phdr c) := (List.range (Ehdr.load enc f c).phnum.toNat).map (phdrAt c enc f)

def dynamicPhdr : Option (Phdr c) := (phdrs c enc f).find? fun p => p.type = ptDynamic

def dyns (p : Phdr c) : List (Dyn c) := (List.range (p.filesz.toNat / c.dynSize)).map (dynAt c enc f p)

def loaded (p : Phdr c) : List (Dyn c) := (dyns c enc f p).takeWhile fun d => d.tag.toNat ≠ dtNull

def padding (p : Phdr c) : List (Dyn c) := (dyns c enc f p).dropWhile fun d => d.tag.toNat ≠ dtNull

def fileOff (v : Nat) : Option Nat :=
  ((phdrs c enc f).find? fun p => p.type = ptLoad ∧ p.vaddr.toNat ≤ v ∧ v < p.vaddr.toNat + p.filesz.toNat).map
    fun p => v - p.vaddr.toNat + p.offset.toNat

/-- The string at `DT_STRTAB` + `d_val`. -/
def loaderStr (p : Phdr c) (d : Dyn c) : Option Bytes := do
  let strtab ← (loaded c enc f p).find? fun d => d.tag.toNat = dtStrtab
  let off ← fileOff c enc f (strtab.un.toNat + d.un.toNat)
  strOf (f.drop off)

/-- The headers lie in the file, the dynamic segment is one, of a program or a shared
object, and ends its entries by a `DT_NULL`; the tags are those of 32 bits, and the
strings are there. -/
structure WellFormed : Prop where
  elf : IsElf c enc f
  phdr : ∀ i, i < (Ehdr.load enc f c).phnum.toNat → Fits f (phdrOff c enc f i) c.phdrSize
  shdr : ∀ i, i < (Ehdr.load enc f c).shnum.toNat → Fits f (shdrOff c enc f i) c.shdrSize
  one : (phdrs c enc f).countP (fun p => p.type = ptDynamic) ≤ 1
  type : dynamicPhdr c enc f ≠ none → (Ehdr.load enc f c).type = 2 ∨ (Ehdr.load enc f c).type = 3
  dyn : ∀ p, dynamicPhdr c enc f = some p → Fits f p.offset.toNat p.filesz.toNat
  null : ∀ p, dynamicPhdr c enc f = some p → padding c enc f p ≠ []
  tags : ∀ p, dynamicPhdr c enc f = some p → ∀ d ∈ loaded c enc f p, d.tag.toNat < 2 ^ 32
  strings : ∀ p, dynamicPhdr c enc f = some p → ∀ d ∈ loaded c enc f p, isString (d.tag.setWidth 32) →
    (loaderStr c enc f p d).isSome

/-! ## What decides whether they agree -/

variable {c}

variable (c)

end

/-! ## The reader on a well-formed file -/

section
variable {host enc : Endian} {c : Class} {f : Bytes} {e : Ehdr c} {dtag : BitVec 32} {strtab : Nat × Nat}

end

/-! ## When the reader and the loader agree -/

section
variable (c : Class) (enc : Endian) (f : Bytes)

variable {c enc f}

end

def libFile (sections : Bool) : Bytes :=
  let half (x : Byte) : Bytes := [x, 0]
  let word (x : Byte) : Bytes := [x, 0, 0, 0]
  elfMag ++ [1, 1, 1, 0, 0, 0, 0, 0, 0, 0, 0, 0] ++ half 3 ++ half 3 ++ word 1 ++ word 0 ++ word 52 ++
    word (if sections then 144 else 0) ++ word 0 ++ half 52 ++ half 32 ++ half 2 ++ half 40 ++ half (if sections then 1 else 0) ++ half 0 ++
  (word 1 ++ word 0 ++ word 0 ++ word 0 ++ word 144 ++ word 144 ++ word 5 ++ word 4) ++
  (word 2 ++ word 116 ++ word 116 ++ word 116 ++ word 24 ++ word 24 ++ word 6 ++ word 4) ++
  (word 1 ++ word 1 ++ word 5 ++ word 140 ++ word 0 ++ word 0) ++ [0, 0x6c, 0, 0] ++
  (if sections then word 0 ++ word 3 ++ word 2 ++ word 140 ++ word 140 ++ word 3 ++ word 0 ++ word 0 ++ word 1 ++ word 0 else [])

instance (f : Bytes) (off n : Nat) : Decidable (Fits f off n) := inferInstanceAs (Decidable (_ ∧ _))

end Iamroot
