import Iamroot.Lib.ByteOrder
import Iamroot.Basic

/-!
# Reading ELF files

The part of `dso.c` that reads an ELF file: the header, the program and
section headers, the dynamic section, and the loop that hands the entries of
one tag to a callback. A structure is read with the host's order, and then
converted field by field when `EI_DATA` names the other one.
-/

namespace Iamroot

open ByteOrder

abbrev Bytes := List Byte

def slice (f : Bytes) (off n : Nat) : Bytes := (f.drop off).take n

/-- `none` is -1: an offset that does not fit in an `off_t` is negative. -/
def pread (f : Bytes) (n off : Nat) : Option Bytes := if off < 2 ^ 63 then some (slice f off n) else none

/-- `pread` of a whole structure, and the two checks that follow it. -/
def preadAll (f : Bytes) (n off : Nat) : Except Errno Bytes :=
  match pread f n off with
  | none => .error .EINVAL
  | some b => if b.length < n then .error Errno.EIO else .ok b

def bswap16 (x : BitVec 16) : BitVec 16 := x <<< 8 ||| x >>> 8

def bswap32 (x : BitVec 32) : BitVec 32 :=
  x >>> 24 ||| (x >>> 8 &&& 0xff00) ||| (x <<< 8 &&& 0xff0000) ||| x <<< 24

def bswap64 (x : BitVec 64) : BitVec 64 :=
  (bswap32 (x.setWidth 32)).setWidth 64 <<< 32 ||| (bswap32 ((x >>> 32).setWidth 32)).setWidth 64

/-! ## The structures of `elf.h` -/

inductive Class where
  | elf32 | elf64
  deriving DecidableEq

namespace Class

@[reducible] def bits : Class → Nat
  | elf32 => 32
  | elf64 => 64

def byte : Class → Byte
  | elf32 => 1
  | elf64 => 2

def phdrSize : Class → Nat
  | elf32 => 32
  | elf64 => 56

def shdrSize : Class → Nat
  | elf32 => 40
  | elf64 => 64

def dynSize : Class → Nat
  | elf32 => 8
  | elf64 => 16

def dynCap (c : Class) : Nat := 1024 * c.dynSize

end Class

abbrev Addr (c : Class) := BitVec c.bits

structure Ehdr (c : Class) where
  ident : Bytes
  type : BitVec 16
  machine : BitVec 16
  version : BitVec 32
  entry : Addr c
  phoff : Addr c
  shoff : Addr c
  flags : BitVec 32
  ehsize : BitVec 16
  phentsize : BitVec 16
  phnum : BitVec 16
  shentsize : BitVec 16
  shnum : BitVec 16
  shstrndx : BitVec 16

structure Phdr (c : Class) where
  type : BitVec 32
  flags : BitVec 32
  offset : Addr c
  vaddr : Addr c
  paddr : Addr c
  filesz : Addr c
  memsz : Addr c
  align : Addr c

structure Shdr (c : Class) where
  name : BitVec 32
  type : BitVec 32
  flags : Addr c
  addr : Addr c
  offset : Addr c
  size : Addr c
  link : BitVec 32
  info : BitVec 32
  addralign : Addr c
  entsize : Addr c

/-- `un` is the union of `d_val` and `d_ptr`. -/
structure Dyn (c : Class) where
  tag : Addr c
  un : Addr c

/-! The structures as a machine of either order sees them in memory. -/

def Ehdr.load (e : Endian) (b : Bytes) : (c : Class) → Ehdr c
  | .elf32 =>
    { ident := slice b 0 16
      type := ByteOrder.load 16 e (slice b 16 2)
      machine := ByteOrder.load 16 e (slice b 18 2)
      version := ByteOrder.load 32 e (slice b 20 4)
      entry := ByteOrder.load 32 e (slice b 24 4)
      phoff := ByteOrder.load 32 e (slice b 28 4)
      shoff := ByteOrder.load 32 e (slice b 32 4)
      flags := ByteOrder.load 32 e (slice b 36 4)
      ehsize := ByteOrder.load 16 e (slice b 40 2)
      phentsize := ByteOrder.load 16 e (slice b 42 2)
      phnum := ByteOrder.load 16 e (slice b 44 2)
      shentsize := ByteOrder.load 16 e (slice b 46 2)
      shnum := ByteOrder.load 16 e (slice b 48 2)
      shstrndx := ByteOrder.load 16 e (slice b 50 2) }
  | .elf64 =>
    { ident := slice b 0 16
      type := ByteOrder.load 16 e (slice b 16 2)
      machine := ByteOrder.load 16 e (slice b 18 2)
      version := ByteOrder.load 32 e (slice b 20 4)
      entry := ByteOrder.load 64 e (slice b 24 8)
      phoff := ByteOrder.load 64 e (slice b 32 8)
      shoff := ByteOrder.load 64 e (slice b 40 8)
      flags := ByteOrder.load 32 e (slice b 48 4)
      ehsize := ByteOrder.load 16 e (slice b 52 2)
      phentsize := ByteOrder.load 16 e (slice b 54 2)
      phnum := ByteOrder.load 16 e (slice b 56 2)
      shentsize := ByteOrder.load 16 e (slice b 58 2)
      shnum := ByteOrder.load 16 e (slice b 60 2)
      shstrndx := ByteOrder.load 16 e (slice b 62 2) }

def Phdr.load (e : Endian) (b : Bytes) : (c : Class) → Phdr c
  | .elf32 =>
    { type := ByteOrder.load 32 e (slice b 0 4)
      offset := ByteOrder.load 32 e (slice b 4 4)
      vaddr := ByteOrder.load 32 e (slice b 8 4)
      paddr := ByteOrder.load 32 e (slice b 12 4)
      filesz := ByteOrder.load 32 e (slice b 16 4)
      memsz := ByteOrder.load 32 e (slice b 20 4)
      flags := ByteOrder.load 32 e (slice b 24 4)
      align := ByteOrder.load 32 e (slice b 28 4) }
  | .elf64 =>
    { type := ByteOrder.load 32 e (slice b 0 4)
      flags := ByteOrder.load 32 e (slice b 4 4)
      offset := ByteOrder.load 64 e (slice b 8 8)
      vaddr := ByteOrder.load 64 e (slice b 16 8)
      paddr := ByteOrder.load 64 e (slice b 24 8)
      filesz := ByteOrder.load 64 e (slice b 32 8)
      memsz := ByteOrder.load 64 e (slice b 40 8)
      align := ByteOrder.load 64 e (slice b 48 8) }

def Shdr.load (e : Endian) (b : Bytes) : (c : Class) → Shdr c
  | .elf32 =>
    { name := ByteOrder.load 32 e (slice b 0 4)
      type := ByteOrder.load 32 e (slice b 4 4)
      flags := ByteOrder.load 32 e (slice b 8 4)
      addr := ByteOrder.load 32 e (slice b 12 4)
      offset := ByteOrder.load 32 e (slice b 16 4)
      size := ByteOrder.load 32 e (slice b 20 4)
      link := ByteOrder.load 32 e (slice b 24 4)
      info := ByteOrder.load 32 e (slice b 28 4)
      addralign := ByteOrder.load 32 e (slice b 32 4)
      entsize := ByteOrder.load 32 e (slice b 36 4) }
  | .elf64 =>
    { name := ByteOrder.load 32 e (slice b 0 4)
      type := ByteOrder.load 32 e (slice b 4 4)
      flags := ByteOrder.load 64 e (slice b 8 8)
      addr := ByteOrder.load 64 e (slice b 16 8)
      offset := ByteOrder.load 64 e (slice b 24 8)
      size := ByteOrder.load 64 e (slice b 32 8)
      link := ByteOrder.load 32 e (slice b 40 4)
      info := ByteOrder.load 32 e (slice b 44 4)
      addralign := ByteOrder.load 64 e (slice b 48 8)
      entsize := ByteOrder.load 64 e (slice b 56 8) }

def Dyn.load (e : Endian) (b : Bytes) : (c : Class) → Dyn c
  | .elf32 => { tag := ByteOrder.load 32 e (slice b 0 4), un := ByteOrder.load 32 e (slice b 4 4) }
  | .elf64 => { tag := ByteOrder.load 64 e (slice b 0 8), un := ByteOrder.load 64 e (slice b 8 8) }

/-! ## The readers -/

section
variable (host : Endian)

/-- `__elf32_swap` and `__elf64_swap`: the last byte of the host's integer 1, and one more. -/
def elfSwap (ident : Bytes) : Bool :=
  let c3 : Byte := match host with
    | .little => 0
    | .big => 1
  some (c3 + 1) != ident[5]?

def elfHalf (swap : Bool) (v : BitVec 16) : BitVec 16 := if !swap then v else bswap16 v

def elfWord (swap : Bool) (v : BitVec 32) : BitVec 32 := if !swap then v else bswap32 v

def elf32Address (swap : Bool) (v : BitVec 32) : BitVec 32 := if !swap then v else bswap32 v

def elf64Address (swap : Bool) (v : BitVec 64) : BitVec 64 := if !swap then v else bswap64 v

def elf32Phdr (ident f : Bytes) (off : Nat) : Except Errno (Phdr .elf32) := do
  let b ← preadAll f 32 off
  let phdr := Phdr.load host b .elf32
  if !elfSwap host ident then return phdr
  return { type := bswap32 phdr.type
           offset := bswap32 phdr.offset
           vaddr := bswap32 phdr.vaddr
           paddr := bswap32 phdr.paddr
           filesz := bswap32 phdr.filesz
           memsz := bswap32 phdr.memsz
           flags := bswap32 phdr.flags
           align := bswap32 phdr.align }

def elf64Phdr (ident f : Bytes) (off : Nat) : Except Errno (Phdr .elf64) := do
  let b ← preadAll f 56 off
  let phdr := Phdr.load host b .elf64
  if !elfSwap host ident then return phdr
  return { type := bswap32 phdr.type
           flags := bswap32 phdr.flags
           offset := bswap64 phdr.offset
           vaddr := bswap64 phdr.vaddr
           paddr := bswap64 phdr.paddr
           filesz := bswap64 phdr.filesz
           memsz := bswap64 phdr.memsz
           align := bswap64 phdr.align }

/-- `sh_info` is the field that is not converted. -/
def elf32Shdr (ident f : Bytes) (off : Nat) : Except Errno (Shdr .elf32) := do
  let b ← preadAll f 40 off
  let shdr := Shdr.load host b .elf32
  if !elfSwap host ident then return shdr
  return { shdr with
           name := bswap32 shdr.name
           type := bswap32 shdr.type
           flags := bswap32 shdr.flags
           addr := bswap32 shdr.addr
           offset := bswap32 shdr.offset
           size := bswap32 shdr.size
           link := bswap32 shdr.link
           addralign := bswap32 shdr.addralign
           entsize := bswap32 shdr.entsize }

def elf64Shdr (ident f : Bytes) (off : Nat) : Except Errno (Shdr .elf64) := do
  let b ← preadAll f 64 off
  let shdr := Shdr.load host b .elf64
  if !elfSwap host ident then return shdr
  return { name := bswap32 shdr.name
           type := bswap32 shdr.type
           flags := bswap64 shdr.flags
           addr := bswap64 shdr.addr
           offset := bswap64 shdr.offset
           size := bswap64 shdr.size
           link := bswap32 shdr.link
           info := bswap32 shdr.info
           addralign := bswap64 shdr.addralign
           entsize := bswap64 shdr.entsize }

def dtNeeded : BitVec 32 := 1

def dtSoname : BitVec 32 := 14

def dtRpath : BitVec 32 := 15

def dtRunpath : BitVec 32 := 29

def isString (tag : BitVec 32) : Bool := tag == dtNeeded || tag == dtSoname || tag == dtRpath || tag == dtRunpath

def dynLoad (c : Class) (b : Bytes) (n : Nat) : List (Dyn c) :=
  (List.range (n / c.dynSize)).map fun j => Dyn.load host (slice b (j * c.dynSize) c.dynSize) c

/-- The pointer is to the array, and the conversion is of what it points to. -/
def elf32Dyn (ident f : Bytes) (dynsiz off : Nat) : Except Errno (List (Dyn .elf32)) := do
  let b ← preadAll f dynsiz off
  let dyn := dynLoad host .elf32 b dynsiz
  if !elfSwap host ident then return dyn
  return dyn.modifyHead fun d => { tag := bswap32 d.tag, un := bswap32 d.un }

def elf64Dyn (ident f : Bytes) (dynsiz off : Nat) : Except Errno (List (Dyn .elf64)) := do
  let b ← preadAll f dynsiz off
  let dyn := dynLoad host .elf64 b dynsiz
  if !elfSwap host ident then return dyn
  return dyn.modifyHead fun d => { tag := bswap64 d.tag, un := bswap64 d.un }

/-- The fields are converted in turn: `e_shentsize` is made of the `e_phentsize` just converted. -/
def elf32Ehdr (b : Bytes) : Ehdr .elf32 :=
  let ehdr := Ehdr.load host b .elf32
  let swap := elfSwap host ehdr.ident
  let phentsize := elfHalf swap ehdr.phentsize
  { ident := ehdr.ident
    type := elfHalf swap ehdr.type
    machine := elfHalf swap ehdr.machine
    version := elfWord swap ehdr.version
    entry := elf32Address swap ehdr.entry
    phoff := elf32Address swap ehdr.phoff
    shoff := elf32Address swap ehdr.shoff
    flags := elfWord swap ehdr.flags
    ehsize := elfHalf swap ehdr.ehsize
    phentsize := phentsize
    phnum := elfHalf swap ehdr.phnum
    shentsize := elfHalf swap phentsize
    shnum := elfHalf swap ehdr.shnum
    shstrndx := elfHalf swap ehdr.shstrndx }

def elf64Ehdr (b : Bytes) : Ehdr .elf64 :=
  let ehdr := Ehdr.load host b .elf64
  let swap := elfSwap host ehdr.ident
  let phentsize := elfHalf swap ehdr.phentsize
  { ident := ehdr.ident
    type := elfHalf swap ehdr.type
    machine := elfHalf swap ehdr.machine
    version := elfWord swap ehdr.version
    entry := elf64Address swap ehdr.entry
    phoff := elf64Address swap ehdr.phoff
    shoff := elf64Address swap ehdr.shoff
    flags := elfWord swap ehdr.flags
    ehsize := elfHalf swap ehdr.ehsize
    phentsize := phentsize
    phnum := elfHalf swap ehdr.phnum
    shentsize := elfHalf swap phentsize
    shnum := elfHalf swap ehdr.shnum
    shstrndx := elfHalf swap ehdr.shstrndx }

def elfMag : Bytes := [0x7f, 0x45, 0x4c, 0x46]

inductive AnyEhdr where
  | elf32 (ehdr : Ehdr .elf32)
  | elf64 (ehdr : Ehdr .elf64)

/-- `__elf_ehdr`: 64 bytes are read, whatever the class. -/
def elfEhdr (f : Bytes) : Except Errno AnyEhdr := do
  let b ← preadAll f 64 0
  if slice b 0 4 ≠ elfMag then throw .ENOEXEC
  else if b[4]? = some Class.elf32.byte then return .elf32 (elf32Ehdr host b)
  else if b[4]? = some Class.elf64.byte then return .elf64 (elf64Ehdr host b)
  else throw .ENOEXEC

/-! ## The iteration -/

def elfPhdr (ident f : Bytes) (off : Nat) : (c : Class) → Except Errno (Phdr c)
  | .elf32 => elf32Phdr host ident f off
  | .elf64 => elf64Phdr host ident f off

def elfShdr (ident f : Bytes) (off : Nat) : (c : Class) → Except Errno (Shdr c)
  | .elf32 => elf32Shdr host ident f off
  | .elf64 => elf64Shdr host ident f off

def elfDyn (ident f : Bytes) (dynsiz off : Nat) : (c : Class) → Except Errno (List (Dyn c))
  | .elf32 => elf32Dyn host ident f dynsiz off
  | .elf64 => elf64Dyn host ident f dynsiz off

def shtStrtab : BitVec 32 := 3

def ptDynamic : BitVec 32 := 2

def bufSiz : Nat := 8192

/-- What the callback is given: an integer in place, or a buffer. -/
inductive Arg (c : Class) where
  | int (v : Addr c)
  | str (b : Bytes)

variable {c : Class} (f : Bytes) (ehdr : Ehdr c)

def findStrtab : Nat → Nat → Except Errno (Nat × Nat)
  | 0, _ => .ok (0, 0)
  | num + 1, off => do
    let shdr ← elfShdr host ehdr.ident f off c
    if shdr.type ≠ shtStrtab then findStrtab num (off + c.shdrSize)
    else return (shdr.size.toNat, shdr.offset.toNat)

variable (dtag : BitVec 32) {σ : Type} (callback : σ → Arg c → σ × Int)

/-- The offset and the size of a string, in the unsigned arithmetic of the sum and the difference. -/
def strRange (strtab : Nat × Nat) (d : Dyn c) : Nat × Nat :=
  ((strtab.2 + d.un.toNat) % 2 ^ 64, min ((strtab.1 + 2 ^ 64 - d.un.toNat) % 2 ^ 64) bufSiz)

/-- The loop over the entries. The flag tells that it left by `goto exit`. -/
def dynLoop (strtab : Nat × Nat) : List (Dyn c) → σ → Int → σ × Int × Bool
  | [], s, ret => (s, ret, false)
  | d :: dyn, s, ret =>
    if d.tag.setWidth 32 ≠ dtag then dynLoop strtab dyn s ret
    else if !isString dtag then
      let (s, ret) := callback s (.int d.un)
      if ret ≠ 0 then (s, ret, false) else dynLoop strtab dyn s ret
    else
      let r := strRange strtab d
      match pread f r.2 r.1 with
      | none => (s, ret, true)
      | some buf =>
        if buf.length < r.2 then (s, -1, true)
        else
          let (s, ret) := callback s (.str buf)
          if ret ≠ 0 then (s, ret, false) else dynLoop strtab dyn s ret

def phdrLoop (strtab : Nat × Nat) : Nat → Nat → σ → Int → σ × Int
  | 0, _, s, _ => (s, 0)
  | num + 1, off, s, ret =>
    match elfPhdr host ehdr.ident f off c with
    | .error _ => (s, ret)
    | .ok phdr =>
      if phdr.type ≠ ptDynamic then phdrLoop strtab num (off + c.phdrSize) s ret
      else if c.dynCap < phdr.filesz.toNat then (s, -1)
      else
        match elfDyn host ehdr.ident f phdr.filesz.toNat phdr.offset.toNat c with
        | .error _ => (s, ret)
        | .ok dyn =>
          match dynLoop f dtag callback strtab dyn s ret with
          | (s, ret, true) => (s, ret)
          | (s, ret, false) => phdrLoop strtab num (off + c.phdrSize) s ret

/-- `__elf_iterate_ehdr32` and `__elf_iterate_ehdr64`, which differ in the types only. -/
def elfIterateEhdr (s : σ) : σ × Int :=
  match findStrtab host f ehdr ehdr.shnum.toNat ehdr.shoff.toNat with
  | .error _ => (s, -1)
  | .ok strtab =>
    if strtab.2 = 0 then (s, -1)
    else phdrLoop host f ehdr dtag callback strtab ehdr.phnum.toNat ehdr.phoff.toNat s (-1)

end

end Iamroot
