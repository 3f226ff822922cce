import Mathlib.Data.List.Pairwise
import RedX.Bootloader.ElfFile
import RedX.Core.RangeWrites

/-!
# Loading the kernel

The loop of `efi_main` that loads the `PT_LOAD` segments.  The two services of the
firmware that it calls are a parameter.  The loader reads the file bytes of a segment
into place but never clears the bytes behind them, and it counts the pages of a segment
from its size alone, as if the segment began on a page.
-/

namespace RedX.KernelImage

open RedX.MachineWord
open RedX.ByteMemory
open RedX.RangeWrites
open RedX.ElfFile

/-- What the loader uses of the firmware. -/
structure Firmware where
  /-- `AllocatePages(AllocateAddress, EfiLoaderData, pages, &address)`: the memory and the
  address after the call, and the pages that it hands out. -/
  allocatePages : (pages address : Word64) → Memory → Memory × Word64 × Set ℕ
  /-- `SetPosition(position)` and `Read`: the bytes that arrive in a buffer of `size`. -/
  read : File → (position size : Word64) → ℕ → Byte

/-- The pages from the one of `address` on. -/
def frames (address pages : Word64) : Set ℕ :=
  {page | pageIndex address ≤ page ∧ page < pageIndex address + pages.toNat}

structure Loaded where
  memory : Memory
  allocated : List (Elf64Phdr × Set ℕ)

/-- The `int pages` of the loop, as it is passed to `AllocatePages`. -/
def pages (phdr : Elf64Phdr) : Word64 :=
  (((phdr.memsz + 0x1000 - 1) / 0x1000).setWidth 32 : Word32).signExtend 64

/-- `switch (phdr->p_type)` -/
def loadSegment (firmware : Firmware) (file : File) (state : Loaded) (phdr : Elf64Phdr) :
    Loaded :=
  if phdr.type = PT_LOAD then
    let allocation := firmware.allocatePages (pages phdr) phdr.paddr state.memory
    let segment := allocation.2.1
    { memory := store allocation.1 segment phdr.filesz.toNat
        (firmware.read file phdr.offset phdr.filesz)
      allocated := state.allocated ++ [(phdr, allocation.2.2)] }
  else state

/-- The loop over the table, with at most `fuel` evaluations of its condition; `place` is
the distance of `phdr` from `phdrs`. -/
def phdrLoop {σ : Type} (header : Elf64Ehdr) (phdrs : ℕ → Byte) (body : σ → Elf64Phdr → σ) :
    ℕ → ℕ → σ → Option σ
  | 0, _, _ => none
  | fuel + 1, place, state =>
      if (place : ℤ) < header.tableSize.toInt then
        phdrLoop header phdrs body fuel (place + header.phentsize.toNat)
          (body state (.decode phdrs place))
      else some state

/-- `efi_main` from the reading of the file header to `Kernel Loaded`. -/
def loadKernel (firmware : Firmware) (file : File) (memory : Memory) : Option Loaded :=
  let header := Elf64Ehdr.decode (firmware.read file 0 ehdrSize)
  let phdrs := firmware.read file header.phoff (header.tableSize.signExtend 64)
  phdrLoop header phdrs (loadSegment firmware file) (2 ^ 16) 0 ⟨memory, []⟩

/-- The file is long enough for what the loader reads of it, the entries of its table are
not shorter than a program header, the size of the table is an `int`, and the segments lie
in the address space without meeting each other. -/
structure WellFormed (file : File) : Prop where
  ehdr : ehdrSize.toNat ≤ file.length
  phentsize : phdrSize ≤ (header file).phentsize.toNat
  int : (header file).phnum.toNat * (header file).phentsize.toNat < 2 ^ 31
  phdrs : (header file).phoff.toNat +
    (header file).phnum.toNat * (header file).phentsize.toNat ≤ file.length
  filesz : ∀ phdr ∈ segments file, phdr.filesz.toNat ≤ phdr.memsz.toNat
  inFile : ∀ phdr ∈ segments file, phdr.offset.toNat + phdr.filesz.toNat ≤ file.length
  inMemory : ∀ phdr ∈ segments file, phdr.paddr.toNat + phdr.memsz.toNat ≤ 2 ^ 64
  apart : (segments file).Pairwise fun left right =>
    Apart left.paddr left.memsz.toNat right.paddr right.memsz.toNat

/-- `AllocatePages` hands out the pages asked for without clearing them, and `Read`
delivers what the file has. -/
structure Firmware.Succeeds (firmware : Firmware) (file : File) : Prop where
  allocatePages : ∀ phdr ∈ segments file, ∀ memory,
    firmware.allocatePages (pages phdr) phdr.paddr memory =
      (memory, phdr.paddr, frames phdr.paddr (pages phdr))
  read : ∀ (position size : Word64) (index : ℕ), position.toNat + size.toNat ≤ file.length →
    index < size.toNat →
      firmware.read file position size index = byteAt file (position.toNat + index)

variable {firmware : Firmware} {file : File} {memory : Memory} {loaded : Loaded}

/-! ## The loop -/

section Loop

variable {σ : Type} (body : σ → Elf64Phdr → σ) (header : Elf64Ehdr) (phdrs : ℕ → Byte)

/-- The loop ends, whatever the header says. -/
theorem phdrLoop_returns (rest : ℕ) : ∀ (k fuel : ℕ) (state : σ),
    k + rest = header.phnum.toNat → rest < fuel →
      ∃ final, phdrLoop header phdrs body fuel (k * header.phentsize.toNat) state = some final := by
  induction rest with
  | zero =>
      intro k fuel state hk hfuel
      obtain ⟨fuel, rfl⟩ : ∃ less, fuel = less + 1 := ⟨fuel - 1, by omega⟩
      have hstop : ¬ ((k * header.phentsize.toNat : ℕ) : ℤ) < header.tableSize.toInt := by
        have hsize := tableSize_le header
        rw [show k = header.phnum.toNat by omega]
        push_cast
        omega
      exact ⟨state, by rw [phdrLoop, if_neg hstop]⟩
  | succ rest ih =>
      intro k fuel state hk hfuel
      obtain ⟨fuel, rfl⟩ : ∃ less, fuel = less + 1 := ⟨fuel - 1, by omega⟩
      rw [phdrLoop]
      split_ifs
      · rw [← Nat.succ_mul]
        exact ih (k + 1) fuel _ (by omega) (by omega)
      · exact ⟨state, rfl⟩

/-- The loop takes the entries of the table one after the other. -/
theorem phdrLoop_eq_foldl (hentries : 0 < header.phentsize.toNat)
    (hint : header.phnum.toNat * header.phentsize.toNat < 2 ^ 31) (rest : ℕ) :
    ∀ (k fuel : ℕ) (state : σ), k + rest = header.phnum.toNat → rest < fuel →
      phdrLoop header phdrs body fuel (k * header.phentsize.toNat) state =
        some (((List.range' k rest).map fun k =>
          Elf64Phdr.decode phdrs (k * header.phentsize.toNat)).foldl body state) := by
  have hsize : header.tableSize.toInt = header.phnum.toNat * header.phentsize.toNat := by
    rw [toInt_of_lt (by rw [tableSize_eq hint]; exact hint), tableSize_eq hint]
    push_cast
    rfl
  induction rest with
  | zero =>
      intro k fuel state hk hfuel
      obtain ⟨fuel, rfl⟩ : ∃ less, fuel = less + 1 := ⟨fuel - 1, by omega⟩
      rw [phdrLoop, if_neg]
      · rfl
      · rw [hsize, show k = header.phnum.toNat by omega]
        push_cast
        omega
  | succ rest ih =>
      intro k fuel state hk hfuel
      obtain ⟨fuel, rfl⟩ : ∃ less, fuel = less + 1 := ⟨fuel - 1, by omega⟩
      have hagain : ((k * header.phentsize.toNat : ℕ) : ℤ) < header.tableSize.toInt := by
        have hlt := Nat.mul_lt_mul_of_pos_right (show k < header.phnum.toNat by omega) hentries
        rw [hsize]
        exact_mod_cast hlt
      rw [phdrLoop, if_pos hagain, ← Nat.succ_mul, ih (k + 1) fuel _ (by omega) (by omega)]
      rfl

end Loop

/-- The loader comes to its end for every file and every firmware. -/
theorem loadKernel_returns (firmware : Firmware) (file : File) (memory : Memory) :
    ∃ loaded, loadKernel firmware file memory = some loaded := by
  let header := Elf64Ehdr.decode (firmware.read file 0 ehdrSize)
  have hphnum : header.phnum.toNat < 2 ^ 16 := header.phnum.isLt
  have hreturns := phdrLoop_returns (loadSegment firmware file) header
    (firmware.read file header.phoff (header.tableSize.signExtend 64)) header.phnum.toNat 0
    (2 ^ 16) ⟨memory, []⟩ (by omega) hphnum
  rw [Nat.zero_mul] at hreturns
  exact hreturns

/-! ## A well-formed file -/

/-- What the loader reads of the header and the table is what the file has there. -/
theorem loadKernel_eq_foldl (hformed : WellFormed file) (hsucceeds : firmware.Succeeds file)
    (memory : Memory) : loadKernel firmware file memory =
      some ((table file).foldl (loadSegment firmware file) ⟨memory, []⟩) := by
  let read := Elf64Ehdr.decode (firmware.read file 0 ehdrSize)
  have hread : ∀ index < 64, firmware.read file 0 ehdrSize index = byteAt file index := by
    intro index hindex
    have hbyte := hsucceeds.read 0 ehdrSize index
      (by rw [show (0 : Word64).toNat = 0 from rfl, Nat.zero_add]; exact hformed.ehdr) hindex
    rwa [show (0 : Word64).toNat = 0 from rfl, Nat.zero_add] at hbyte
  obtain ⟨hphoff, hphentsize, hphnum⟩ := decode_ehdr_congr hread
  change read.phoff = (header file).phoff at hphoff
  change read.phentsize = (header file).phentsize at hphentsize
  change read.phnum = (header file).phnum at hphnum
  have hint : read.phnum.toNat * read.phentsize.toNat < 2 ^ 31 := by
    rw [hphnum, hphentsize]
    exact hformed.int
  have hentries : phdrSize ≤ read.phentsize.toNat := hphentsize ▸ hformed.phentsize
  have hsize : (read.tableSize.signExtend 64).toNat =
      (header file).phnum.toNat * (header file).phentsize.toNat := by
    rw [toNat_signExtend_of_lt (by rw [tableSize_eq hint]; exact hint), tableSize_eq hint,
      hphnum, hphentsize]
  have hloop := phdrLoop_eq_foldl (loadSegment firmware file) read
    (firmware.read file read.phoff (read.tableSize.signExtend 64))
    (show 0 < read.phentsize.toNat by unfold phdrSize at hentries; omega) hint
    read.phnum.toNat 0 (2 ^ 16) ⟨memory, []⟩ (by omega) read.phnum.isLt
  have htable : ((List.range' 0 read.phnum.toNat).map fun k =>
      Elf64Phdr.decode (firmware.read file read.phoff (read.tableSize.signExtend 64))
        (k * read.phentsize.toNat)) = table file := by
    rw [table, ← List.range_eq_range', hphnum, hphentsize, hphoff]
    apply List.map_congr_left
    intro k hk
    have hlast : (k + 1) * (header file).phentsize.toNat ≤
        (header file).phnum.toNat * (header file).phentsize.toNat :=
      Nat.mul_le_mul_right _ (List.mem_range.mp hk)
    rw [Nat.succ_mul] at hlast
    apply decode_phdr_congr
    intro index hindex
    have hphdr := hformed.phentsize
    rw [hsucceeds.read (header file).phoff _ _ (by rw [hsize]; exact hformed.phdrs)
      (by rw [hsize]; omega), Nat.add_assoc]
  rw [Nat.zero_mul, htable] at hloop
  exact hloop

theorem foldl_loadSegment_segments (entries : List Elf64Phdr) (state : Loaded) :
    entries.foldl (loadSegment firmware file) state =
      (entries.filter fun phdr => phdr.type = PT_LOAD).foldl (loadSegment firmware file) state := by
  induction entries generalizing state with
  | nil => rfl
  | cons phdr entries ih =>
      rw [List.foldl_cons, ih, List.filter_cons]
      by_cases hload : phdr.type = PT_LOAD
      · rw [if_pos (decide_eq_true hload), List.foldl_cons]
      · rw [if_neg (by simpa using hload), loadSegment, if_neg hload]

/-- The bytes that the loader reads into place for a segment. -/
def fileBytes (firmware : Firmware) (file : File) (phdr : Elf64Phdr) : RangeWrite :=
  ⟨phdr.paddr, phdr.filesz.toNat, firmware.read file phdr.offset phdr.filesz⟩

theorem foldl_loadSegment (hsucceeds : firmware.Succeeds file) {loads : List Elf64Phdr}
    (hloads : ∀ phdr ∈ loads, phdr ∈ segments file) (state : Loaded) :
    loads.foldl (loadSegment firmware file) state =
      { memory := performAll state.memory (loads.map (fileBytes firmware file))
        allocated := state.allocated ++
          loads.map fun phdr => (phdr, frames phdr.paddr (pages phdr)) } := by
  induction loads generalizing state with
  | nil => simp
  | cons phdr loads ih =>
      have hmem := hloads phdr List.mem_cons_self
      have hload : phdr.type = PT_LOAD := by simpa using (List.mem_filter.mp hmem).2
      have hfirst : loadSegment firmware file state phdr =
          { memory := (fileBytes firmware file phdr).perform state.memory
            allocated := state.allocated ++ [(phdr, frames phdr.paddr (pages phdr))] } := by
        rw [loadSegment, if_pos hload, hsucceeds.allocatePages phdr hmem]
        rfl
      rw [List.foldl_cons, hfirst,
        ih fun later hlater => hloads later (List.mem_cons_of_mem _ hlater)]
      simp

/-- The memory and the pages when the loop has ended. -/
theorem loadKernel_eq (hformed : WellFormed file) (hsucceeds : firmware.Succeeds file)
    (hload : loadKernel firmware file memory = some loaded) :
    loaded.memory = performAll memory ((segments file).map (fileBytes firmware file)) ∧
      loaded.allocated =
        (segments file).map fun phdr => (phdr, frames phdr.paddr (pages phdr)) := by
  rw [loadKernel_eq_foldl hformed hsucceeds, foldl_loadSegment_segments] at hload
  change some ((segments file).foldl (loadSegment firmware file) ⟨memory, []⟩) = _ at hload
  rw [foldl_loadSegment hsucceeds fun _ => id] at hload
  obtain rfl := Option.some.inj hload
  exact ⟨rfl, List.nil_append _⟩

/-! ## The memory image -/

/-- What a `PT_LOAD` segment asks for: its file bytes, zeros behind them, and pages
allocated for every byte. -/
structure InPlace (file : File) (loaded : Loaded) (phdr : Elf64Phdr) : Prop where
  bytes : ∀ index < phdr.filesz.toNat,
    loaded.memory (phdr.paddr + BitVec.ofNat 64 index) = byteAt file (phdr.offset.toNat + index)
  zeros : ∀ index, phdr.filesz.toNat ≤ index → index < phdr.memsz.toNat →
    loaded.memory (phdr.paddr + BitVec.ofNat 64 index) = 0
  pages : ∃ granted, (phdr, granted) ∈ loaded.allocated ∧
    ∀ index < phdr.memsz.toNat, pageIndex (phdr.paddr + BitVec.ofNat 64 index) ∈ granted

/-- The memory behind the file bytes is zero before the segment is loaded. -/
def BlankTail (memory : Memory) (phdr : Elf64Phdr) : Prop :=
  ∀ index, phdr.filesz.toNat ≤ index → index < phdr.memsz.toNat →
    memory (phdr.paddr + BitVec.ofNat 64 index) = 0

/-- The pages counted from the size hold the segment from its place in the first page on. -/
def Covered (phdr : Elf64Phdr) : Prop :=
  phdr.memsz.toNat = 0 ∨
    phdr.paddr.toNat % 4096 + phdr.memsz.toNat ≤ 4096 * (pages phdr).toNat

variable {phdr : Elf64Phdr}

theorem separate_fileBytes (hformed : WellFormed file) :
    ((segments file).map (fileBytes firmware file)).Pairwise Separate := by
  rw [List.pairwise_map]
  refine hformed.apart.imp_of_mem ?_
  intro left right hleft hright hapart address hinside
  have hends := hapart address (lt_of_lt_of_le hinside (hformed.filesz left hleft))
  exact (hformed.filesz right hright).trans hends

theorem toNat_paddr_add (hformed : WellFormed file) (hphdr : phdr ∈ segments file) {index : ℕ}
    (hindex : index < phdr.memsz.toNat) :
    (phdr.paddr + BitVec.ofNat 64 index).toNat = phdr.paddr.toNat + index := by
  have hend := hformed.inMemory phdr hphdr
  rw [BitVec.toNat_add, BitVec.toNat_ofNat]
  omega

theorem bytes_of_loadKernel (hformed : WellFormed file) (hsucceeds : firmware.Succeeds file)
    (hload : loadKernel firmware file memory = some loaded) (hphdr : phdr ∈ segments file)
    {index : ℕ} (hindex : index < phdr.filesz.toNat) :
    loaded.memory (phdr.paddr + BitVec.ofNat 64 index) =
      byteAt file (phdr.offset.toNat + index) := by
  have hoffset := offset_add_ofNat phdr.paddr (show index < 2 ^ 64 by omega)
  have hinside : (fileBytes firmware file phdr).Mem (phdr.paddr + BitVec.ofNat 64 index) := by
    rw [RangeWrite.Mem, fileBytes, hoffset]
    exact hindex
  rw [(loadKernel_eq hformed hsucceeds hload).1,
    performAll_of_mem (separate_fileBytes hformed) (List.mem_map_of_mem hphdr) hinside]
  change firmware.read file phdr.offset phdr.filesz (offset phdr.paddr _) = _
  rw [hoffset, hsucceeds.read _ _ _ (hformed.inFile phdr hphdr) hindex]

/-- The bytes behind the file bytes are not touched. -/
theorem tail_of_loadKernel (hformed : WellFormed file) (hsucceeds : firmware.Succeeds file)
    (hload : loadKernel firmware file memory = some loaded) (hphdr : phdr ∈ segments file)
    {index : ℕ} (hbehind : phdr.filesz.toNat ≤ index) (hindex : index < phdr.memsz.toNat) :
    loaded.memory (phdr.paddr + BitVec.ofNat 64 index) =
      memory (phdr.paddr + BitVec.ofNat 64 index) := by
  have hoffset := offset_add_ofNat phdr.paddr (show index < 2 ^ 64 by omega)
  rw [(loadKernel_eq hformed hsucceeds hload).1]
  apply performAll_of_outside
  intro write hwrite
  obtain ⟨other, hother, rfl⟩ := List.mem_map.mp hwrite
  rw [RangeWrite.Mem, fileBytes, not_lt]
  by_cases hsame : other = phdr
  · rw [hsame, hoffset]
    exact hbehind
  · have : Std.Symm fun left right : Elf64Phdr =>
        Apart left.paddr left.memsz.toNat right.paddr right.memsz.toNat :=
      ⟨fun _ _ => Apart.symm⟩
    have hends := hformed.apart.forall hphdr hother (Ne.symm hsame)
      (phdr.paddr + BitVec.ofNat 64 index) (by rw [hoffset]; exact hindex)
    exact (hformed.filesz other hother).trans hends

theorem covered_iff (hformed : WellFormed file) (hphdr : phdr ∈ segments file) :
    Covered phdr ↔ ∀ index < phdr.memsz.toNat,
      pageIndex (phdr.paddr + BitVec.ofNat 64 index) ∈ frames phdr.paddr (pages phdr) := by
  constructor
  · intro hcovered index hindex
    have hplace := toNat_paddr_add hformed hphdr hindex
    rcases hcovered with hempty | hcovered
    · omega
    · simp only [frames, pageIndex, hplace, Set.mem_ofPred_eq]
      omega
  · intro hinside
    by_cases hempty : phdr.memsz.toNat = 0
    · exact .inl hempty
    · right
      have hlast := (hinside (phdr.memsz.toNat - 1) (by omega)).2
      rw [pageIndex, pageIndex, toNat_paddr_add hformed hphdr (by omega)] at hlast
      omega

theorem inPlace_iff (hformed : WellFormed file) (hsucceeds : firmware.Succeeds file)
    (hload : loadKernel firmware file memory = some loaded) (hphdr : phdr ∈ segments file) :
    InPlace file loaded phdr ↔ BlankTail memory phdr ∧ Covered phdr := by
  have hallocated := (loadKernel_eq hformed hsucceeds hload).2
  constructor
  · intro hplace
    refine ⟨fun index hbehind hindex => ?_, (covered_iff hformed hphdr).mpr fun index hindex => ?_⟩
    · rw [← tail_of_loadKernel hformed hsucceeds hload hphdr hbehind hindex]
      exact hplace.zeros index hbehind hindex
    · obtain ⟨granted, hgranted, hinside⟩ := hplace.pages
      rw [hallocated] at hgranted
      obtain ⟨other, _, hsame⟩ := List.mem_map.mp hgranted
      obtain ⟨rfl, rfl⟩ := Prod.mk.inj hsame
      exact hinside index hindex
  · rintro ⟨hblank, hcovered⟩
    refine ⟨fun index hindex => bytes_of_loadKernel hformed hsucceeds hload hphdr hindex,
      fun index hbehind hindex => ?_, frames phdr.paddr (pages phdr), ?_,
      (covered_iff hformed hphdr).mp hcovered⟩
    · rw [tail_of_loadKernel hformed hsucceeds hload hphdr hbehind hindex]
      exact hblank index hbehind hindex
    · rw [hallocated]
      exact List.mem_map_of_mem hphdr

/-- The loader always comes to its end, and then the memory holds the image of the file if
and only if the memory behind the file bytes of every segment was zero before and the
pages counted from its size hold the segment where it lies. -/
theorem loadKernel_image_iff (hformed : WellFormed file) (hsucceeds : firmware.Succeeds file)
    (memory : Memory) : ∃ loaded, loadKernel firmware file memory = some loaded ∧
      ((∀ phdr ∈ segments file, InPlace file loaded phdr) ↔
        ∀ phdr ∈ segments file, BlankTail memory phdr ∧ Covered phdr) := by
  obtain ⟨loaded, hload⟩ := loadKernel_returns firmware file memory
  refine ⟨loaded, hload, forall₂_congr fun phdr hphdr => ?_⟩
  exact inPlace_iff hformed hsucceeds hload hphdr

/-- Firmware whose allocations succeed, without clearing the pages. -/
def plainFirmware : Firmware where
  allocatePages pages address memory := (memory, address, frames address pages)
  read file position _ index := byteAt file (position.toNat + index)

theorem plainFirmware_succeeds (file : File) : plainFirmware.Succeeds file :=
  ⟨fun _ _ _ => rfl, fun _ _ _ _ _ => rfl⟩

/-- The `count` bytes of a little-endian number. -/
def little (count value : ℕ) : List Byte :=
  (List.range count).map fun index => .ofNat 8 (value / 256 ^ index)

/-- A file with one segment of one byte. -/
def oneByteFile (paddr memsz : ℕ) : File :=
  List.replicate 32 0 ++ little 8 64 ++ List.replicate 14 0 ++ little 2 56 ++ little 2 1 ++
    List.replicate 6 0 ++
  little 4 1 ++ List.replicate 4 0 ++ little 8 120 ++ List.replicate 8 0 ++ little 8 paddr ++
    little 8 1 ++ little 8 memsz ++ List.replicate 8 0 ++ [0xC3]

theorem wellFormed_of_one_segment {file : File} {phdr : Elf64Phdr}
    (hehdr : ehdrSize.toNat ≤ file.length ∧ phdrSize ≤ (header file).phentsize.toNat ∧
      (header file).phnum.toNat * (header file).phentsize.toNat < 2 ^ 31 ∧
      (header file).phoff.toNat +
        (header file).phnum.toNat * (header file).phentsize.toNat ≤ file.length)
    (hsegments : segments file = [phdr])
    (hphdr : phdr.filesz.toNat ≤ phdr.memsz.toNat ∧
      phdr.offset.toNat + phdr.filesz.toNat ≤ file.length ∧
      phdr.paddr.toNat + phdr.memsz.toNat ≤ 2 ^ 64) : WellFormed file := by
  obtain ⟨hlength, hphentsize, hint, hphdrs⟩ := hehdr
  refine ⟨hlength, hphentsize, hint, hphdrs, ?_, ?_, ?_, ?_⟩
  all_goals rw [hsegments]
  · simpa using hphdr.1
  · simpa using hphdr.2.1
  · simpa using hphdr.2.2
  · exact List.pairwise_singleton _ _

/-- A segment of one byte and a zero behind it, in memory that is blank. -/
theorem loadKernel_image_blank :
    WellFormed (oneByteFile 0x100000 2) ∧
      ∃ loaded, loadKernel plainFirmware (oneByteFile 0x100000 2) (fun _ => 0) = some loaded ∧
        ∀ phdr ∈ segments (oneByteFile 0x100000 2),
          InPlace (oneByteFile 0x100000 2) loaded phdr := by
  have hsegments : segments (oneByteFile 0x100000 2) = [⟨PT_LOAD, 120, 0x100000, 1, 2⟩] := by
    decide +kernel
  have hformed : WellFormed (oneByteFile 0x100000 2) :=
    wellFormed_of_one_segment (by decide +kernel) hsegments (by decide +kernel)
  obtain ⟨loaded, hload, himage⟩ :=
    loadKernel_image_iff hformed (plainFirmware_succeeds _) fun _ => 0
  refine ⟨hformed, loaded, hload, himage.mpr fun phdr hphdr => ⟨fun _ _ _ => rfl, .inr ?_⟩⟩
  rw [hsegments, List.mem_singleton] at hphdr
  subst hphdr
  decide

/-- Memory that holds `0xFF` everywhere, and a segment of one file byte and a zero that
begins on the last byte of a page: the zero is missing, and its page is not allocated. -/
theorem tail_neither_cleared_nor_allocated :
    WellFormed (oneByteFile 0x100FFF 2) ∧ plainFirmware.Succeeds (oneByteFile 0x100FFF 2) ∧
      ∃ loaded, loadKernel plainFirmware (oneByteFile 0x100FFF 2) (fun _ => 0xFF) = some loaded ∧
        loaded.memory 0x101000 = 0xFF ∧
        (∀ phdr ∈ segments (oneByteFile 0x100FFF 2), ¬ BlankTail (fun _ => 0xFF) phdr ∧
          ¬ Covered phdr ∧ ¬ InPlace (oneByteFile 0x100FFF 2) loaded phdr) ∧
        segments (oneByteFile 0x100FFF 2) = [⟨PT_LOAD, 120, 0x100FFF, 1, 2⟩] := by
  have hsegments : segments (oneByteFile 0x100FFF 2) = [⟨PT_LOAD, 120, 0x100FFF, 1, 2⟩] := by
    decide +kernel
  have hformed : WellFormed (oneByteFile 0x100FFF 2) :=
    wellFormed_of_one_segment (by decide +kernel) hsegments (by decide +kernel)
  have hsucceeds := plainFirmware_succeeds (oneByteFile 0x100FFF 2)
  obtain ⟨loaded, hload⟩ := loadKernel_returns plainFirmware (oneByteFile 0x100FFF 2) fun _ => 0xFF
  have hbyte : (loadKernel plainFirmware (oneByteFile 0x100FFF 2) fun _ => 0xFF).map
      (fun loaded => loaded.memory 0x101000) = some 0xFF := by
    decide +kernel
  rw [hload] at hbyte
  refine ⟨hformed, hsucceeds, loaded, hload, Option.some.inj hbyte, fun phdr hphdr => ?_, hsegments⟩
  have hplace := inPlace_iff hformed hsucceeds hload hphdr
  rw [hsegments, List.mem_singleton] at hphdr
  have hcovered : ¬ Covered phdr := by
    rw [hphdr]
    rintro (hempty | hcovered)
    · exact absurd hempty (by decide)
    · exact absurd hcovered (by decide)
  refine ⟨fun hblank => ?_, hcovered, fun hin => hcovered (hplace.mp hin).2⟩
  rw [hphdr] at hblank
  exact absurd (hblank 1 le_rfl (by decide)) (by decide)

end RedX.KernelImage
