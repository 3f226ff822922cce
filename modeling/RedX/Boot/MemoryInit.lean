import RedX.Memory.BootBitmap
import RedX.Paging.SparedBitmap

/-!
# `memoryInit`

The start of the kernel's memory code in `kernelFunc.cpp`: `readMap`, the locks for what
is already in memory, the start of the pools behind the memory's size, and the identity
mappings in the order of the source.  All of them together are one run of `map`
(`mapRegions_iff`).
-/

namespace RedX.MemoryInit

open RedX.MachineWord
open RedX.ByteMemory
open RedX.PartialRun
open RedX.PageBitmap
open RedX.PageAllocation
open RedX.MemoryMap
open RedX.ReadMap
open RedX.BootBitmap
open RedX.PageOwnership (Sized)
open RedX.PagePass
open RedX.FreePages
open RedX.WordArray
open RedX.RadixTree
open RedX.TableEntry
open RedX.PageTables
open RedX.PageTree
open RedX.MapRun
open RedX.PagePool
open RedX.KernelRun
open RedX.SparedBitmap

/-- The symbols `_KernelStart` and `_KernelEnd` of the linker script. -/
structure KernelImage where
  kernelStart : Word64
  kernelEnd : Word64

/-- `KernelParameters` at `address`, with the structures that it leads to: the frame buffer
description at `buffer` and the font at `font`. -/
structure KernelParameters where
  address : Word64
  buffer : Word64
  frameBuffer : TextRenderer.Framebuffer
  font : Word64
  fontBuffer : Word64
  fontHeader : Word64
  map : EfiMemoryMap
  stack : Word64
  stackSize : Word64
  pageDirectoryAddress : Word64
  pageDirectorySize : Word64

def KernelImage.kernelSize (image : KernelImage) : Word64 := image.kernelEnd - image.kernelStart

/-- The calls of `locks` and `lock`. -/
def lockRegions (image : KernelImage) (params : KernelParameters) (allocator : PageAllocator) :
    PageAllocator :=
  let kernelPages := image.kernelSize / 0x1000 + 1
  let allocator := allocator.locks image.kernelStart (kernelPages + 1)
  let allocator := allocator.locks params.stack (params.stackSize / 0x1000 + 1)
  let allocator := allocator.locks params.pageDirectoryAddress
    (params.pageDirectorySize / 0x1000 + 1)
  let allocator := allocator.locks params.frameBuffer.baseAddr
    (params.frameBuffer.size / 0x1000 + 1)
  let allocator := allocator.lock params.address
  let allocator := allocator.lock params.buffer
  let allocator := allocator.lock params.font
  let allocator := allocator.lock params.fontBuffer
  allocator.lock params.fontHeader

/-- `for (uint64_t i = start; i < finish; i += 0x1000) map(i, i)` with at most `fuel`
evaluations of its condition. -/
def mapLoop (console : Console) (man : PTableMan) (finish : Word64) :
    ℕ → Word64 → Kernel → Option Kernel
  | 0, _, _ => none
  | fuel + 1, i, s =>
      if i < finish then mapLoop console man finish fuel (i + 0x1000) (man.map console i i s)
      else some s

/-- The loop, whose counter comes back to its start after `2^52` passes. -/
def mapRange (console : Console) (man : PTableMan) (start finish : Word64) (s : Kernel) :
    Option Kernel :=
  mapLoop console man finish (2 ^ 52 + 1) start s

def mapRegions (console : Console) (image : KernelImage) (params : KernelParameters)
    (man : PTableMan) (s : Kernel) : Option Kernel := do
  let s ← mapRange console man image.kernelStart
    (image.kernelStart + image.kernelSize + 0x1000) s
  let s ← mapRange console man params.stack (params.stack + params.stackSize + 0x1000) s
  let s ← mapRange console man params.pageDirectoryAddress
    (params.pageDirectoryAddress + params.pageDirectorySize) s
  let bitmap := s.allocator.pageBitmap
  let s ← mapRange console man bitmap.buffer (bitmap.buffer + bitmap.size + 0x1000) s
  let s ← mapRange console man params.frameBuffer.baseAddr
    (params.frameBuffer.baseAddr + params.frameBuffer.size + 0x1000) s
  let s := man.map console params.address params.address s
  let s := man.map console params.buffer params.buffer s
  let s := man.map console params.font params.font s
  let s := man.map console params.fontBuffer params.fontBuffer s
  return man.map console params.fontHeader params.fontHeader s

/-- `memoryInit` up to `pageTableMan.init` -/
def lockStage (image : KernelImage) (params : KernelParameters) (s : Kernel) : Option Kernel :=
  (readMap { s.allocator with pageBitmap := ⟨0, 0⟩ } params.map).map fun allocator =>
    let allocator := lockRegions image params allocator
    let memSize := getMemorySize allocator params.map
    { s with
      allocator := memSize.2
      VAI := pageAlign (memSize.1 + params.frameBuffer.size) }

def KernelParameters.pageTableMan (params : KernelParameters) : PTableMan :=
  .init params.pageDirectoryAddress params.pageDirectorySize

def memoryInit (console : Console) (image : KernelImage) (params : KernelParameters)
    (s : Kernel) : Option Kernel :=
  (lockStage image params s).bind fun s =>
    mapRegions console image params params.pageTableMan s

variable {console : Console} {image : KernelImage} {params : KernelParameters} {man : PTableMan}
  {s s' locked : Kernel} {start finish : Word64} {first count page : ℕ}

/-! ## The loops as runs of `map` -/

/-- The counter reaches the end of the range before it wraps. -/
def Ends (start finish : Word64) : Prop :=
  finish.toNat ≤ 2 ^ 64 - 4096 + start.toNat % 4096

instance (start finish : Word64) : Decidable (Ends start finish) :=
  inferInstanceAs (Decidable (_ ≤ _))

/-- The passes of the loop. -/
def passCount (start finish : Word64) : ℕ := (finish.toNat - start.toNat + 4095) / 4096

/-- The addresses of `count` pages from `start` on. -/
def addressesFrom (start : Word64) : ℕ → List Word64
  | 0 => []
  | count + 1 => start :: addressesFrom (start + 0x1000) count

def identity (addrs : List Word64) : List MapRun.Call := addrs.map fun addr => (addr, addr)

/-- Where the largest value that the counter takes is before the end, the loop goes on for
ever. -/
theorem mapLoop_eq_none (hend : ¬ Ends start finish) (fuel : ℕ) (s : Kernel) :
    mapLoop console man finish fuel start s = none := by
  induction fuel generalizing start s with
  | zero => rfl
  | succ fuel ih =>
      unfold Ends at hend ih
      have hlast := start.isLt
      have hnext : (start + 0x1000).toNat % 4096 = start.toNat % 4096 := by
        rw [toNat_add_page]
        omega
      rw [mapLoop, if_pos (by rw [BitVec.lt_def]; omega)]
      exact ih (by rwa [hnext]) _

theorem mapLoop_eq_mapAll (hend : Ends start finish) {fuel : ℕ}
    (hfuel : passCount start finish < fuel) (s : Kernel) :
    mapLoop console man finish fuel start s =
      some (mapAll console man s (identity (addressesFrom start (passCount start finish)))) := by
  induction fuel generalizing start s with
  | zero => exact absurd hfuel (Nat.not_lt_zero _)
  | succ fuel ih =>
      unfold Ends at hend ih
      rw [mapLoop]
      split_ifs with hlt
      · rw [BitVec.lt_def] at hlt
        have hnext : (start + 0x1000).toNat = start.toNat + 4096 := by
          rw [toNat_add_page]
          omega
        have hcount : passCount start finish = passCount (start + 0x1000) finish + 1 := by
          unfold passCount
          rw [hnext]
          omega
        rw [ih (by rw [hnext]; omega) (by omega), hcount]
        rfl
      · have hcount : passCount start finish = 0 := by
          rw [BitVec.lt_def] at hlt
          unfold passCount
          omega
        rw [hcount]
        rfl

theorem mapRange_iff : mapRange console man start finish s = some s' ↔
    Ends start finish ∧
      s' = mapAll console man s (identity (addressesFrom start (passCount start finish))) := by
  by_cases hend : Ends start finish
  · have hlast := finish.isLt
    rw [mapRange, mapLoop_eq_mapAll hend (by unfold passCount; omega), Option.some.injEq,
      and_iff_right hend]
    exact eq_comm
  · rw [mapRange, mapLoop_eq_none hend]
    simp [hend]

/-- The bounds of the five loops. -/
def ranges (image : KernelImage) (params : KernelParameters) (bitmap : Bitmap) :
    List (Word64 × Word64) :=
  [(image.kernelStart, image.kernelStart + image.kernelSize + 0x1000),
    (params.stack, params.stack + params.stackSize + 0x1000),
    (params.pageDirectoryAddress, params.pageDirectoryAddress + params.pageDirectorySize),
    (bitmap.buffer, bitmap.buffer + bitmap.size + 0x1000),
    (params.frameBuffer.baseAddr, params.frameBuffer.baseAddr + params.frameBuffer.size + 0x1000)]

/-- The structures of which one page each is mapped. -/
def structures (params : KernelParameters) : List Word64 :=
  [params.address, params.buffer, params.font, params.fontBuffer, params.fontHeader]

/-- The addresses that `memoryInit` maps, in order. -/
def mappedAddrs (image : KernelImage) (params : KernelParameters) (bitmap : Bitmap) :
    List Word64 :=
  ((ranges image params bitmap).flatMap fun range =>
    addressesFrom range.1 (passCount range.1 range.2)) ++ structures params

/-- The mappings are one run of `map`, if all the loops end. -/
theorem mapRegions_iff : mapRegions console image params man s = some s' ↔
    (∀ range ∈ ranges image params s.allocator.pageBitmap, Ends range.1 range.2) ∧
      s' = mapAll console man s
        (identity (mappedAddrs image params s.allocator.pageBitmap)) := by
  have hbitmap := fun calls => (mapAll_rewritten console man s calls).pageBitmap
  simp only [mapRegions, Option.bind_eq_bind, Option.bind_eq_some_iff, mapRange_iff,
    Option.pure_def, Option.some.injEq]
  constructor
  · rintro ⟨-, ⟨hkernel, rfl⟩, -, ⟨hstack, rfl⟩, -, ⟨hdirectory, rfl⟩, hrest⟩
    rw [← mapAll_append, ← mapAll_append, hbitmap] at hrest
    obtain ⟨-, ⟨hstore, rfl⟩, -, ⟨hframe, rfl⟩, rfl⟩ := hrest
    refine ⟨?_, ?_⟩
    · simp only [ranges, List.forall_mem_cons]
      exact ⟨hkernel, hstack, hdirectory, hstore, hframe, by simp⟩
    · simp only [mappedAddrs, ranges, structures, identity, List.flatMap_cons, List.flatMap_nil,
        List.map_append, List.append_nil, mapAll_append]
      rfl
  · rintro ⟨hends, rfl⟩
    simp only [ranges, List.forall_mem_cons] at hends
    obtain ⟨hkernel, hstack, hdirectory, hstore, hframe, -⟩ := hends
    refine ⟨_, ⟨hkernel, rfl⟩, _, ⟨hstack, rfl⟩, _, ⟨hdirectory, rfl⟩, ?_⟩
    rw [← mapAll_append, ← mapAll_append, hbitmap]
    refine ⟨_, ⟨hstore, rfl⟩, _, ⟨hframe, rfl⟩, ?_⟩
    simp only [mappedAddrs, ranges, structures, identity, List.flatMap_cons, List.flatMap_nil,
      List.map_append, List.append_nil, mapAll_append]
    rfl

/-! ## The state in which the mappings start -/

/-- The bitmap that `readMap` builds. -/
def bootBitmap (map : EfiMemoryMap) : Bitmap := ⟨BitVec.ofNat 64 (bitmapBytes map), bitmapBase map⟩

/-- The calls of `lockRegions`. -/
def lockCalls (image : KernelImage) (params : KernelParameters) : List PagePass.Call :=
  [.locks image.kernelStart (image.kernelSize / 0x1000 + 1 + 1),
    .locks params.stack (params.stackSize / 0x1000 + 1),
    .locks params.pageDirectoryAddress (params.pageDirectorySize / 0x1000 + 1),
    .locks params.frameBuffer.baseAddr (params.frameBuffer.size / 0x1000 + 1),
    .lock params.address, .lock params.buffer, .lock params.font, .lock params.fontBuffer,
    .lock params.fontHeader]

theorem run_lockCalls (image : KernelImage) (params : KernelParameters) (s : PageAllocator) :
    run perform s (lockCalls image params) = some (lockRegions image params s) := rfl

/-- The page at which the pools start. -/
def poolStart (params : KernelParameters) : ℕ :=
  (memoryPages params.map * 4096 + params.frameBuffer.size.toNat) % 2 ^ 64 / 4096

/-- The bitmap is in place, the pages of `lockCalls` are marked and `VAI` is set. -/
structure Locked (image : KernelImage) (params : KernelParameters) (s locked : Kernel) : Prop where
  small : bitmapBytes params.map < 2 ^ 32
  pageBitmap : locked.allocator.pageBitmap = bootBitmap params.map
  marked : ∀ call ∈ lockCalls image params, ∀ addr ∈ call.pass.addrs,
    pageIndex addr ≤ 8 * bitmapBytes params.map → locked.allocator.Marked (pageIndex addr)
  memory : AgreeOutside (bitmapStore (bootBitmap params.map) (bitmapBytes params.map + 1))
    s.memory locked.memory
  PDI : locked.PDI = s.PDI
  VAI : virtualPage locked.VAI = poolStart params % 2 ^ 36

theorem getMemorySize_bitmap (s : PageAllocator) (map : EfiMemoryMap) :
    (getMemorySize s map).2.pageBitmap = s.pageBitmap ∧
      (getMemorySize s map).2.memory = s.memory ∧
      ∀ page, (getMemorySize s map).2.Marked page ↔ s.Marked page := by
  rw [getMemorySize]
  split_ifs <;> exact ⟨rfl, rfl, fun _ => Iff.rfl⟩

theorem locked_of_lockStage (hvalid : Valid params.map) (hfresh : Fresh s.allocator)
    (hstage : lockStage image params s = some locked) : Locked image params s locked := by
  rw [lockStage, Option.map_eq_some_iff] at hstage
  obtain ⟨allocator, hread, rfl⟩ := hstage
  have hstart : Fresh ({ s.allocator with pageBitmap := ⟨0, 0⟩ } : PageAllocator) := hfresh
  have hbooted := booted_of_readMap hvalid hstart hread
  have hbytes := Booted.size_toNat hbooted
  have hreach := Booted.reach hbooted
  have hrun := run_lockCalls image params allocator
  have hwell : allocator.pageBitmap.WellSized := hbytes.trans_le (bitmapBytes_le params.map)
  have hbitmap := run_pageBitmap hwell hrun
  obtain ⟨hbitmap', hmemory, hmarked⟩ :=
    getMemorySize_bitmap (lockRegions image params allocator) params.map
  refine ⟨hbooted.small, hbitmap'.trans (hbitmap.trans hbooted.pageBitmap), ?_, ?_, rfl, ?_⟩
  · intro call hcall addr haddr hpage
    refine (hmarked (pageIndex addr)).mpr ?_
    rw [marked_of_run hwell (by simp [lockCalls, PagePass.Call.pass]) hrun (by omega)]
    exact Or.inr ⟨call, hcall, addr, haddr, rfl⟩
  · change AgreeOutside _ s.allocator.memory (getMemorySize _ _).2.memory
    have hcalls := calls_agreeOutside hwell hrun
    have hread := readMap_agreeOutside hvalid hstart hread
    rw [hbytes, hbooted.pageBitmap] at hcalls
    rw [hbooted.pageBitmap] at hread
    rw [hmemory]
    exact hread.trans hcalls
  · have htotal := getMemorySize_of_readMap hvalid hstart hread hrun
    change virtualPage (pageAlign _) = _
    unfold virtualPage poolStart
    rw [toNat_pageAlign, BitVec.toNat_add, htotal, Nat.mul_div_cancel _ (by omega)]

/-- `memoryInit` gets as far as the mappings if the loop of `bitmapInit` ends. -/
theorem lockStage_eq_some (image : KernelImage) (hvalid : Valid params.map)
    (hfresh : Fresh s.allocator) (hsmall : bitmapBytes params.map < 2 ^ 32) :
    ∃ locked, lockStage image params s = some locked := by
  let start : PageAllocator := { s.allocator with pageBitmap := ⟨0, 0⟩ }
  obtain ⟨allocator, hread, -⟩ := readMap_booted (s := start) hvalid hfresh hsmall
  exact ⟨_, by rw [lockStage, hread]; rfl⟩

/-- The addresses that `memoryInit` maps. -/
def identityMapped (image : KernelImage) (params : KernelParameters) : List Word64 :=
  mappedAddrs image params (bootBitmap params.map)

/-- `memoryInit` is one run of `map` from the state with the locks, if all loops end. -/
theorem memoryInit_iff (hvalid : Valid params.map) (hfresh : Fresh s.allocator) :
    memoryInit console image params s = some s' ↔
      ∃ locked, lockStage image params s = some locked ∧
        (∀ range ∈ ranges image params (bootBitmap params.map), Ends range.1 range.2) ∧
        s' = mapAll console params.pageTableMan locked
          (identity (identityMapped image params)) := by
  rw [memoryInit, Option.bind_eq_some_iff]
  refine exists_congr fun locked => and_congr_right fun hstage => ?_
  rw [mapRegions_iff, (locked_of_lockStage hvalid hfresh hstage).pageBitmap, identityMapped]

/-! ## The pages that are mapped -/

/-- The spans of pages that `memoryInit` maps. -/
def identitySpans (image : KernelImage) (params : KernelParameters) : List Span :=
  ((ranges image params (bootBitmap params.map)).map fun range =>
      ⟨pageIndex range.1, passCount range.1 range.2⟩) ++
    (structures params).map fun addr => ⟨pageIndex addr, 1⟩

theorem exists_addressesFrom_iff (hstart : virtualPage start = first % 2 ^ 36) :
    (∃ addr ∈ addressesFrom start count, virtualPage addr = page) ↔
      Span.Holds ⟨first, count⟩ page := by
  induction count generalizing start first with
  | zero => simp [addressesFrom, Span.Holds]
  | succ count ih =>
      have hnext : virtualPage (start + 0x1000) = (first + 1) % 2 ^ 36 := by
        rw [virtualPage_add_page, hstart]
        omega
      rw [addressesFrom, holds_succ, ← ih hnext, List.exists_mem_cons_iff, hstart]

theorem exists_identityMapped_iff :
    (∃ addr ∈ identityMapped image params, virtualPage addr = page) ↔
      ∃ span ∈ identitySpans image params, span.Holds page := by
  have hrange : ∀ range : Word64 × Word64,
      (∃ addr ∈ addressesFrom range.1 (passCount range.1 range.2), virtualPage addr = page) ↔
        Span.Holds ⟨pageIndex range.1, passCount range.1 range.2⟩ page :=
    fun range => exists_addressesFrom_iff rfl
  have hstructure : ∀ addr : Word64,
      virtualPage addr = page ↔ Span.Holds ⟨pageIndex addr, 1⟩ page := by
    intro addr
    have hiff : _ ↔ Span.Holds ⟨pageIndex addr, 1⟩ page :=
      exists_addressesFrom_iff (rfl : virtualPage addr = pageIndex addr % 2 ^ 36)
    rw [← hiff]
    simp [addressesFrom]
  simp only [identityMapped, mappedAddrs, identitySpans, List.mem_append, List.mem_flatMap,
    List.mem_map, or_and_right, exists_or]
  refine or_congr ?_ ?_
  · constructor
    · rintro ⟨addr, ⟨range, hrange', haddr⟩, hpage⟩
      exact ⟨_, ⟨range, hrange', rfl⟩, (hrange range).mp ⟨addr, haddr, hpage⟩⟩
    · rintro ⟨-, ⟨range, hrange', rfl⟩, hholds⟩
      obtain ⟨addr, haddr, hpage⟩ := (hrange range).mpr hholds
      exact ⟨addr, ⟨range, hrange', haddr⟩, hpage⟩
  · constructor
    · rintro ⟨addr, haddr, hpage⟩
      exact ⟨_, ⟨addr, haddr, rfl⟩, (hstructure addr).mp hpage⟩
    · rintro ⟨-, ⟨addr, haddr, rfl⟩, hholds⟩
      exact ⟨addr, haddr, (hstructure addr).mpr hholds⟩

/-! ## A directory apart from the bitmap -/

section Apart

variable {root : ℕ → Word64} (hlocked : Locked image params s locked)

include hlocked

theorem Locked.sized : Sized (bootBitmap params.map) locked.allocator := by
  have hsmall := hlocked.small
  have hsize : (bootBitmap params.map).size.toNat = bitmapBytes params.map := by
    rw [bootBitmap, BitVec.toNat_ofNat]
    omega
  refine ⟨hlocked.pageBitmap, hsize.trans_le (bitmapBytes_le params.map), ?_⟩
  rw [hsize]
  exact Nat.succ_pos _

/-- The root stays what it was if the bitmap is placed elsewhere. -/
theorem Locked.cells (hroom : Room params.pageTableMan 0)
    (hbitmap : Disjoint (region params.pageTableMan)
      (bitmapStore (bootBitmap params.map) (bitmapBytes params.map + 1)))
    {index : ℕ} (hindex : index < 512) :
    cells params.pageTableMan locked.memory index =
      cells params.pageTableMan s.memory index := by
  apply wordAt_of_agreeOutside (by omega) hlocked.memory
  intro address hmem
  apply Set.disjoint_left.mp hbitmap
  apply hroom.tables_subset
  simp only [tables, words, Set.mem_ofPred_eq] at hmem ⊢
  omega

/-- With room in a directory that does not meet the bitmap, `memoryInit` spares the bitmap. -/
theorem Locked.spares
    (hrep : Represents params.pageTableMan root (Placement.initial 512) (fun _ => none) locked)
    (hroot : NonePresent root)
    (hroom : Room params.pageTableMan (placed (identity (identityMapped image params))).count)
    (hapart : Disjoint (region params.pageTableMan) console.touched)
    (hbitmap : Disjoint (region params.pageTableMan ∪ console.touched)
      (bitmapStore (bootBitmap params.map) (bitmapBytes params.map))) :
    Meets (step console params.pageTableMan) (Spares console params.pageTableMan)
      (History.start locked) (mapEvents (identity (identityMapped image params))) := by
  refine spares_mapEvents (h := History.start locked) hrep hroot ?_ hapart ?_
  · rwa [insertPages, List.foldl_map]
  · change Disjoint _ (bitmapStore locked.allocator.pageBitmap
      locked.allocator.pageBitmap.size.toNat)
    have hsmall := hlocked.small
    rw [hlocked.pageBitmap, bootBitmap, BitVec.toNat_ofNat, Nat.mod_eq_of_lt (by omega)]
    exact hbitmap

end Apart

/-! ## Sixteen pages of loader data after fifteen free ones -/

section Loader

variable {base : Word64}

/-- The kernel, the stack and the structures in loader data from `base` on, with the page
directory first, and a frame buffer of one page at `0x80000`. -/
def loaderParams (base : Word64) : KernelParameters where
  address := base + 0xc000
  buffer := base + 0xc100
  frameBuffer := ⟨0x80000, 0x1000, 32, 32, 32⟩
  font := base + 0xc200
  fontBuffer := base + 0xd000
  fontHeader := base + 0xc300
  map := [⟨7, 0x1000, 15⟩, ⟨2, base, 16⟩]
  stack := base + 0xa000
  stackSize := 0x1000
  pageDirectoryAddress := base
  pageDirectorySize := 0x8000

def loaderImage (base : Word64) : KernelImage := ⟨base + 0x8000, base + 0x9000⟩

/-- Memory is clear and nothing has run. -/
def bootKernel : Kernel := ⟨atBoot fun _ => 0, ⟨0, 0, 0, 0⟩, 0, 0⟩

theorem loaderMap_valid (hbase : base = 0x10000 ∨ base = 0x20000) :
    Valid (loaderParams base).map := by
  rcases hbase with rfl | rfl <;>
  exact (valid_nil.cons (by decide) (by decide) (by decide) (by decide)).cons
    (by decide) (by decide) (by decide) (by decide)

theorem loader_room (hbase : base = 0x10000 ∨ base = 0x20000) :
    Room (loaderParams base).pageTableMan
      (placed (identity (identityMapped (loaderImage base) (loaderParams base)))).count := by
  have hcount : (placed (identity (identityMapped (loaderImage base)
      (loaderParams base)))).count = 3 := by
    rcases hbase with rfl | rfl <;> decide +kernel
  rw [hcount]
  rcases hbase with rfl | rfl <;> exact ⟨by decide, by decide, by decide, by decide, by decide⟩

theorem loader_apart (hbase : base = 0x10000 ∨ base = 0x20000) :
    Disjoint (region (loaderParams base).pageTableMan) headless.touched := by
  apply disjoint_headless
  rcases hbase with rfl | rfl <;> decide

/-- The bitmap has four bytes at `0x1000`. -/
theorem loader_disjoint (hbase : base = 0x10000 ∨ base = 0x20000)
    (hcount : count ≤ bitmapBytes (loaderParams base).map + 1) :
    Disjoint (region (loaderParams base).pageTableMan ∪ headless.touched)
      (bitmapStore (bootBitmap (loaderParams base).map) count) := by
  apply disjoint_bitmapStore
  · refine (Nat.add_le_add_left hcount _).trans ?_
    rcases hbase with rfl | rfl <;> decide
  · rcases hbase with rfl | rfl <;> decide

theorem loader_cells (hbase : base = 0x10000 ∨ base = 0x20000)
    (hlocked : Locked (loaderImage base) (loaderParams base) bootKernel locked) (index : ℕ)
    (hindex : index < 512) : cells (loaderParams base).pageTableMan locked.memory index = 0 := by
  rw [hlocked.cells ((loader_room hbase).mono (Nat.zero_le _))
    ((loader_disjoint hbase le_rfl).mono_left Set.subset_union_left) hindex]
  exact cells_unmapped _ index

theorem loader_represents (hbase : base = 0x10000 ∨ base = 0x20000)
    (hlocked : Locked (loaderImage base) (loaderParams base) bootKernel locked) :
    Represents (loaderParams base).pageTableMan (fun _ => 0) (Placement.initial 512)
      (fun _ => none) locked :=
  represents_initial hlocked.PDI (loader_cells hbase hlocked)

/-- At both places `memoryInit` returns and has spared the bitmap. -/
theorem loader_stages (hbase : base = 0x10000 ∨ base = 0x20000) :
    ∃ locked, lockStage (loaderImage base) (loaderParams base) bootKernel = some locked ∧
      Locked (loaderImage base) (loaderParams base) bootKernel locked ∧
      memoryInit headless (loaderImage base) (loaderParams base) bootKernel =
        some (mapAll headless (loaderParams base).pageTableMan locked
          (identity (identityMapped (loaderImage base) (loaderParams base)))) ∧
      Meets (step headless (loaderParams base).pageTableMan)
        (Spares headless (loaderParams base).pageTableMan) (History.start locked)
        (mapEvents (identity (identityMapped (loaderImage base) (loaderParams base)))) := by
  have hvalid := loaderMap_valid hbase
  have hfresh : Fresh bootKernel.allocator := fresh_atBoot _
  have hsmall : bitmapBytes (loaderParams base).map < 2 ^ 32 := by
    rcases hbase with rfl | rfl <;> decide
  obtain ⟨locked, hstage⟩ := lockStage_eq_some (loaderImage base) hvalid hfresh hsmall
  have hlocked := locked_of_lockStage hvalid hfresh hstage
  have hends : ∀ range ∈ ranges (loaderImage base) (loaderParams base)
      (bootBitmap (loaderParams base).map), Ends range.1 range.2 := by
    simp only [ranges, List.forall_mem_cons]
    rcases hbase with rfl | rfl <;>
    exact ⟨by decide, by decide, by decide, by decide, by decide, by simp⟩
  exact ⟨locked, hstage, hlocked,
    (memoryInit_iff hvalid hfresh).mpr ⟨locked, hstage, hends, rfl⟩,
    hlocked.spares (loader_represents hbase hlocked) (fun _ _ => BitVec.getLsbD_zero)
      (loader_room hbase) (loader_apart hbase) (loader_disjoint hbase (by omega))⟩

end Loader

end RedX.MemoryInit
