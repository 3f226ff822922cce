import RedX.Core.ByteMemory

/-!
# ELF64 files

The file header and the program headers that `bootloader/main.c` reads, with the
layout of the ELF64 format: little-endian numbers at fixed positions.  `segments` are
the `PT_LOAD` entries of the program header table, wherever the header says it is.
-/

namespace RedX.ElfFile

open RedX.MachineWord

abbrev Word16 := BitVec 16

/-- The little-endian number in `count` bytes from `position` on. -/
def number (bytes : ℕ → Byte) (position : ℕ) : ℕ → ℕ
  | 0 => 0
  | count + 1 => (bytes position).toNat + 256 * number bytes (position + 1) count

structure Elf64Ehdr where
  ident : ℕ → Byte
  type : Word16
  machine : Word16
  version : Word32
  entry : Word64
  phoff : Word64
  phentsize : Word16
  phnum : Word16

/-- `header.e_phnum * header.e_phentsize`, a product of two `int`s -/
def Elf64Ehdr.tableSize (header : Elf64Ehdr) : Word32 :=
  header.phnum.setWidth 32 * header.phentsize.setWidth 32

/-- `sizeof(Elf64_Ehdr)` -/
def ehdrSize : Word64 := 64

def Elf64Ehdr.decode (bytes : ℕ → Byte) : Elf64Ehdr where
  ident := bytes
  type := .ofNat 16 (number bytes 16 2)
  machine := .ofNat 16 (number bytes 18 2)
  version := .ofNat 32 (number bytes 20 4)
  entry := .ofNat 64 (number bytes 24 8)
  phoff := .ofNat 64 (number bytes 32 8)
  phentsize := .ofNat 16 (number bytes 54 2)
  phnum := .ofNat 16 (number bytes 56 2)

structure Elf64Phdr where
  type : Word32
  offset : Word64
  paddr : Word64
  filesz : Word64
  memsz : Word64
  deriving DecidableEq

/-- `sizeof(Elf64_Phdr)` -/
def phdrSize : ℕ := 56

/-- The program header at `start`. -/
def Elf64Phdr.decode (bytes : ℕ → Byte) (start : ℕ) : Elf64Phdr where
  type := .ofNat 32 (number bytes start 4)
  offset := .ofNat 64 (number bytes (start + 8) 8)
  paddr := .ofNat 64 (number bytes (start + 24) 8)
  filesz := .ofNat 64 (number bytes (start + 32) 8)
  memsz := .ofNat 64 (number bytes (start + 40) 8)

def PT_LOAD : Word32 := 1

abbrev File := List Byte

def byteAt (file : File) (position : ℕ) : Byte := file.getD position 0

def header (file : File) : Elf64Ehdr := .decode (byteAt file)

/-- The program header table of the file. -/
def table (file : File) : List Elf64Phdr :=
  (List.range (header file).phnum.toNat).map fun k =>
    .decode (byteAt file) ((header file).phoff.toNat + k * (header file).phentsize.toNat)

def segments (file : File) : List Elf64Phdr := (table file).filter fun phdr => phdr.type = PT_LOAD

variable {bytes bytes' : ℕ → Byte} {header : Elf64Ehdr}

/-- The size of the table as an `int` is at most the product. -/
theorem tableSize_le (header : Elf64Ehdr) :
    header.tableSize.toInt ≤ header.phnum.toNat * header.phentsize.toNat := by
  have hproduct : header.tableSize.toNat ≤ header.phnum.toNat * header.phentsize.toNat := by
    rw [Elf64Ehdr.tableSize, BitVec.toNat_mul]
    refine (Nat.mod_le _ _).trans (Nat.mul_le_mul ?_ ?_)
    · exact (BitVec.toNat_setWidth ..).trans_le (Nat.mod_le _ _)
    · exact (BitVec.toNat_setWidth ..).trans_le (Nat.mod_le _ _)
  have hint : header.tableSize.toInt ≤ header.tableSize.toNat := by
    rw [BitVec.toInt_eq_toNat_cond]
    split_ifs <;> omega
  exact hint.trans (by exact_mod_cast hproduct)

theorem tableSize_eq (hint : header.phnum.toNat * header.phentsize.toNat < 2 ^ 31) :
    header.tableSize.toNat = header.phnum.toNat * header.phentsize.toNat := by
  have hphnum := header.phnum.isLt
  have hphentsize := header.phentsize.isLt
  rw [Elf64Ehdr.tableSize, BitVec.toNat_mul, BitVec.toNat_setWidth, BitVec.toNat_setWidth,
    Nat.mod_eq_of_lt (show header.phnum.toNat < 2 ^ 32 by omega),
    Nat.mod_eq_of_lt (show header.phentsize.toNat < 2 ^ 32 by omega)]
  exact Nat.mod_eq_of_lt (by omega)

theorem number_congr {start start' count : ℕ}
    (hbytes : ∀ index < count, bytes (start + index) = bytes' (start' + index)) :
    number bytes start count = number bytes' start' count := by
  induction count generalizing start start' with
  | zero => rfl
  | succ count ih =>
      have hfirst := hbytes 0 (Nat.succ_pos count)
      have hrest : number bytes (start + 1) count = number bytes' (start' + 1) count := by
        apply ih
        intro index hindex
        rw [Nat.add_assoc, Nat.add_assoc, Nat.add_comm 1]
        exact hbytes (index + 1) (Nat.succ_lt_succ hindex)
      rw [number, number, hrest, ← Nat.add_zero start, ← Nat.add_zero start', hfirst]

/-- The first 64 bytes determine what is read of the header. -/
theorem decode_ehdr_congr (hbytes : ∀ index < 64, bytes index = bytes' index) :
    (Elf64Ehdr.decode bytes).phoff = (Elf64Ehdr.decode bytes').phoff ∧
      (Elf64Ehdr.decode bytes).phentsize = (Elf64Ehdr.decode bytes').phentsize ∧
      (Elf64Ehdr.decode bytes).phnum = (Elf64Ehdr.decode bytes').phnum := by
  have hfield : ∀ position count, position + count ≤ 64 →
      number bytes position count = number bytes' position count := by
    intro position count hend
    exact number_congr fun index hindex => hbytes _ (by omega)
  refine ⟨?_, ?_, ?_⟩
  · exact congrArg (BitVec.ofNat 64) (hfield 32 8 (by decide))
  · exact congrArg (BitVec.ofNat 16) (hfield 54 2 (by decide))
  · exact congrArg (BitVec.ofNat 16) (hfield 56 2 (by decide))

theorem decode_phdr_congr {start start' : ℕ}
    (hbytes : ∀ index < phdrSize, bytes (start + index) = bytes' (start' + index)) :
    Elf64Phdr.decode bytes start = Elf64Phdr.decode bytes' start' := by
  have hfield : ∀ position count, position + count ≤ phdrSize →
      number bytes (start + position) count = number bytes' (start' + position) count := by
    intro position count hend
    apply number_congr
    intro index hindex
    rw [Nat.add_assoc, Nat.add_assoc]
    exact hbytes _ (by omega)
  have htype := hfield 0 4 (by decide)
  rw [Nat.add_zero, Nat.add_zero] at htype
  rw [Elf64Phdr.decode, Elf64Phdr.decode, htype, hfield 8 8 (by decide), hfield 24 8 (by decide),
    hfield 32 8 (by decide), hfield 40 8 (by decide)]

end RedX.ElfFile
