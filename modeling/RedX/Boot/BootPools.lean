import RedX.Boot.BootData
import RedX.Boot.BootLocks
import RedX.Memory.ScanOrder
import RedX.Paging.PoolMemory

/-!
# Pools after start-up

`memoryInit` leaves the kernel in a state from which pools are private memory, as long as
the allocator has free pages below the page bitmap; `readMap` releases the pages of the
bitmap itself.
-/

namespace RedX.BootPools

open RedX.MachineWord
open RedX.ByteMemory
open RedX.PartialRun
open RedX.Simulation
open RedX.RadixTree
open RedX.PageAllocation
open RedX.MemoryMap
open RedX.ReadMap
open RedX.PagePass
open RedX.FreePages
open RedX.TableEntry
open RedX.PageTables
open RedX.PageTree
open RedX.MapRun
open RedX.PagePool
open RedX.KernelRun (History mapEvents Span virtualPage_add_page)
open RedX.SparedBitmap
open RedX.MemoryInit
open RedX.BootData
open RedX.BootLocks
open RedX.PoolMemory

/-- What the kernel is started with: boot data as in `Prepared`, a scan from page 0, the
bitmap below `2 ^ 40` and away from the page directory and from what `map` writes besides, and pools
that start in the lower half of virtual memory. -/
structure PoolReady (console : Console) (image : KernelImage) (params : KernelParameters)
    (header : EfiMain.PsfHeader) (s : Kernel) : Prop where
  prepared : Prepared console image params header s
  pageI : s.allocator.pageI = 0
  bitmap : Disjoint (region params.pageTableMan ∪ console.touched)
    (bitmapStore (bootBitmap params.map) (bitmapBytes params.map + 1))
  last : (bootBitmap params.map).buffer.toNat + bitmapBytes params.map < 2 ^ 40
  total : memoryPages params.map * 4096 + params.frameBuffer.size.toNat ≤ 2 ^ 47

/-- The calls of `map` in `memoryInit`. -/
def identityCalls (image : KernelImage) (params : KernelParameters) : List MapRun.Call :=
  identity (identityMapped image params)

variable {console : Console} {image : KernelImage} {params : KernelParameters}
  {header : EfiMain.PsfHeader} {s locked booted : Kernel} {addr : Word64} {limit i : ℕ}

/-! ## The state after the locks -/

theorem toNat_VAI_of_lockStage (hvalid : Valid params.map) (hfresh : Fresh s.allocator)
    (hstage : lockStage image params s = some locked) :
    locked.VAI.toNat = 4096 * poolStart params := by
  rw [lockStage, Option.map_eq_some_iff] at hstage
  obtain ⟨allocator, hread, rfl⟩ := hstage
  have hstart : Fresh ({ s.allocator with pageBitmap := ⟨0, 0⟩ } : PageAllocator) := hfresh
  have hbytes := getMemorySize_of_readMap hvalid hstart hread (run_lockCalls image params allocator)
  change (pageAlign _).toNat = _
  rw [toNat_pageAlign, BitVec.toNat_add, hbytes, poolStart]
  exact Nat.mul_comm _ _

theorem scanBehind_of_lockStage (hfresh : Fresh s.allocator) (hpageI : s.allocator.pageI = 0)
    (hstage : lockStage image params s = some locked) : ScanBehind locked.allocator := by
  rw [lockStage, Option.map_eq_some_iff] at hstage
  obtain ⟨allocator, hread, rfl⟩ := hstage
  let start : PageAllocator := { s.allocator with pageBitmap := ⟨0, 0⟩ }
  have hstart : Fresh start := hfresh
  rw [readMap_eq_run hstart.1, Option.bind_eq_some_iff] at hread
  obtain ⟨cleared, hstage, hboot⟩ := hread
  obtain ⟨hsize, hpos, hkept⟩ := ScanOrder.bitmapStage_sized hstage
  have hall : run perform cleared (bootCalls cleared (getMemorySize start params.map).1 params.map ++
      lockCalls image params) = some (lockRegions image params allocator) := by
    rw [run_append, hboot, Option.bind_some]
    exact run_lockCalls image params allocator
  have hbehind := scanBehind_of_run hsize hpos (hkept.trans hpageI) hall
  obtain ⟨hbitmap, -, hmarked⟩ :=
    getMemorySize_bitmap (lockRegions image params allocator) params.map
  exact scanBehind_congr hbitmap (ScanOrder.getMemorySize_pageI _ params.map)
    (fun page _ => hmarked page) hbehind

/-! ## The state after the mappings -/

/-- The pages below the bitmap. -/
def poolLimit (params : KernelParameters) : ℕ := pageIndex (bootBitmap params.map).buffer

/-- A loop that goes one page beyond a region maps the byte after the region, too. -/
theorem holds_extra {start size : Word64} (hend : start.toNat + size.toNat < 2 ^ 40)
    (hi : i ≤ size.toNat) : Span.Holds ⟨pageIndex start, passCount start (start + size + 0x1000)⟩
      (pageIndex (start + BitVec.ofNat 64 i)) := by
  have hfinish : (start + size + 0x1000).toNat = start.toNat + size.toNat + 4096 := by
    rw [toNat_add_page, BitVec.toNat_add]
    omega
  have hbyte : (start + BitVec.ofNat 64 i).toNat = start.toNat + i := by
    rw [BitVec.toNat_add, BitVec.toNat_ofNat]
    omega
  refine ⟨(start.toNat % 4096 + i) / 4096, by simp only [passCount]; omega, ?_⟩
  change (pageIndex start + _) % 2 ^ 36 = _
  unfold pageIndex
  rw [hbyte]
  omega

theorem Locked.toNat_size (hlocked : Locked image params s locked) :
    (bootBitmap params.map).size.toNat = bitmapBytes params.map := by
  have hsmall := hlocked.small
  rw [bootBitmap, BitVec.toNat_ofNat]
  omega

section Booted

variable (hready : PoolReady console image params header s)
include hready

theorem PoolReady.room : Room params.pageTableMan (placed (identityCalls image params)).count :=
  Translation.room_of_inside hready.prepared.aligned hready.prepared.tables

/-- The bytes of tables and bitmap lie in ranges that are mapped, and those of the bitmap not
below it. -/
theorem tableStore_place (hlocked : Locked image params s locked)
    (hmem : addr ∈ tableStore params.pageTableMan (bootBitmap params.map)) :
    addr.toNat < 2 ^ 40 ∧ (∃ span ∈ identitySpans image params, span.Holds (pageIndex addr)) ∧
      ((∃ i < params.pageDirectorySize.toNat,
          params.pageDirectoryAddress + BitVec.ofNat 64 i = addr) ∨
        poolLimit params ≤ pageIndex addr) := by
  have hsize := Locked.toNat_size hlocked
  have hlow := hready.prepared.low
  obtain ⟨-, hcovered⟩ := hready.prepared.ranges
  rcases hmem with ⟨hfirst, hlast⟩ | hmem
  · have hdirectory : (params.pageDirectoryAddress, params.pageDirectorySize) ∈
        regions image params := by simp [regions]
    have hend := (hlow _ (List.mem_append_left _ hdirectory)).2
    change params.pageDirectoryAddress.toNat ≤ _ at hfirst
    change _ < params.pageDirectoryAddress.toNat + params.pageDirectorySize.toNat at hlast
    change params.pageDirectoryAddress.toNat + params.pageDirectorySize.toNat ≤ _ at hend
    let i := addr.toNat - params.pageDirectoryAddress.toNat
    have haddr : params.pageDirectoryAddress + BitVec.ofNat 64 i = addr := by
      apply BitVec.eq_of_toNat_eq
      rw [BitVec.toNat_add, BitVec.toNat_ofNat]
      omega
    have hspan := hcovered _ hdirectory i (show i < params.pageDirectorySize.toNat by omega)
    rw [haddr] at hspan
    exact ⟨by omega, hspan, Or.inl ⟨i, by omega, haddr⟩⟩
  · have hlast := hready.last
    rw [← hsize] at hlast
    have hoffset : offset (bootBitmap params.map).buffer addr <
        (bootBitmap params.map).size.toNat + 1 := hmem
    rw [← add_offset (bootBitmap params.map).buffer addr]
    generalize offset (bootBitmap params.map).buffer addr = i at hoffset
    have hbyte : ((bootBitmap params.map).buffer + BitVec.ofNat 64 i).toNat =
        (bootBitmap params.map).buffer.toNat + i := by
      rw [BitVec.toNat_add, BitVec.toNat_ofNat]
      omega
    refine ⟨by omega, ⟨_, ?_, holds_extra hlast (Nat.le_of_lt_succ hoffset)⟩, Or.inr ?_⟩
    · simp [identitySpans, ranges]
    · unfold poolLimit pageIndex
      rw [hbyte]
      exact Nat.div_le_div_right (Nat.le_add_right _ _)

variable (hstage : lockStage image params s = some locked)
include hstage

theorem PoolReady.represents :
    Represents params.pageTableMan (fun _ => 0) (Placement.initial 512) (fun _ => none) locked :=
  have hlocked := locked_of_lockStage hready.prepared.valid hready.prepared.fresh hstage
  represents_initial (hlocked.PDI.trans hready.prepared.PDI) (hready.prepared.root locked hstage)

/-- The calls of `map` leave the marked pages as the locks have left them. -/
theorem booted_marked {page : ℕ} (hpage : page < 8 * (bootBitmap params.map).size.toNat) :
    (mapAll console params.pageTableMan locked (identityCalls image params)).allocator.Marked page ↔
      locked.allocator.Marked page := by
  have hlocked := locked_of_lockStage hready.prepared.valid hready.prepared.fresh hstage
  have hspares := hlocked.spares (hready.represents hstage) (fun _ _ => BitVec.getLsbD_zero)
    hready.room hready.prepared.apart
    (hready.bitmap.mono_right (bitmapStore_mono _ (Nat.le_succ _)))
  exact mapAll_marked (h := History.start locked) hlocked.sized hspares hpage

/-- `memoryInit` has built a setting in which pools are private memory. -/
theorem setting_booted :
    Setting params.pageTableMan (placed (identityCalls image params))
      (lastFrame (identityCalls image params)) (poolStart params) (poolLimit params)
      (mapAll console params.pageTableMan locked (identityCalls image params)) := by
  have hprepared := hready.prepared
  have hlocked := locked_of_lockStage hprepared.valid hprepared.fresh hstage
  have hsize := Locked.toNat_size hlocked
  have htotal := hready.total
  have hrewritten := mapAll_rewritten console params.pageTableMan locked (identityCalls image params)
  have hbitmap := hrewritten.pageBitmap.trans hlocked.pageBitmap
  obtain ⟨-, hwell, hpos⟩ := hlocked.sized
  have hapart : Disjoint (region params.pageTableMan)
      (bitmapStore (bootBitmap params.map) ((bootBitmap params.map).size.toNat + 1)) := by
    rw [hsize]
    exact hready.bitmap.mono_left Set.subset_union_left
  have hmarked : ∀ page < 8 * (bootBitmap params.map).size.toNat, _ ↔ _ :=
    fun _ hpage => booted_marked hready hstage hpage
  refine ⟨⟨?_, by rw [hbitmap]; exact hwell, ?_, ?_⟩, ?_, ⟨?_, ?_, hready.room⟩, ?_, ?_, ?_, ?_, ?_⟩
  · exact mapAll_represents (hready.represents hstage) (fun _ _ => BitVec.getLsbD_zero)
      hprepared.apart hready.room
  · rw [hbitmap]
    exact hapart.mono_right (bitmapStore_mono _ (Nat.le_succ _))
  · refine scanBehind_congr hrewritten.pageBitmap hrewritten.pageI (fun page hpage => ?_)
      (scanBehind_of_lockStage hprepared.fresh hready.pageI hstage)
    rw [PageAllocator.reach, hlocked.pageBitmap] at hpage
    exact hmarked page hpage
  · rw [hrewritten.VAI]
    exact toNat_VAI_of_lockStage hprepared.valid hprepared.fresh hstage
  · change 4096 * poolStart params ≤ _
    unfold poolStart
    omega
  · intro page hfirst hlast
    exact absurd (hfirst.trans_lt hlast) (lt_irrefl _)
  · have hlast := hready.last
    unfold poolLimit pageIndex
    omega
  · rw [hbitmap]
    exact hpos
  · rw [hbitmap]
    exact hapart
  · intro addr hmem hfree
    rw [hbitmap] at hmem
    obtain ⟨hlimit, hreach, hclear⟩ := mem_freePages.mp hfree
    rw [PageAllocator.reach, hbitmap] at hreach
    obtain ⟨-, -, ⟨i, hi, rfl⟩ | habove⟩ := tableStore_place hready hlocked hmem
    · obtain ⟨locks, haddrs, hpage⟩ := locks_aligned hprepared.aligned hi
      rw [← hpage] at hreach hclear
      refine hclear ((hmarked _ (by omega)).mpr (hlocked.marked _ ?_ locks haddrs ?_))
      · simp [lockCalls]
      · omega
    · omega
  · intro addr hmem
    rw [hbitmap] at hmem
    obtain ⟨hlow, hspan, -⟩ := tableStore_place hready hlocked hmem
    have hpage : virtualPage addr = pageIndex addr := virtualPage_of_low (by omega)
    rw [← hpage, ← exists_identityMapped_iff] at hspan
    obtain ⟨frame, hframe, hsame, hleaf⟩ := lastFrame_identity hspan
    rw [virtualPage_of_low (hprepared.toNat_mapped hframe), hpage] at hsame
    refine ⟨hlow, frame, hleaf, BitVec.eq_of_toNat_eq ?_⟩
    unfold pageIndex at hsame
    rw [toNat_pageAlign, toNat_pageAlign, hsame]

end Booted

/-! ## Runs from start-up on -/

/-- The state of a machine after `memoryInit`. -/
def noPools (booted : Kernel) : Machine := ⟨booted, []⟩

def AllowedAfterBoot (image : KernelImage) (params : KernelParameters) :
    Machine → PoolMemory.Event → Prop :=
  Allowed params.pageTableMan (placed (identityCalls image params))
    (lastFrame (identityCalls image params)) (poolStart params) (poolLimit params)

variable {events : List PoolMemory.Event} {m : Machine}

theorem booted_pageBitmap (hready : PoolReady console image params header s)
    (hinit : memoryInit console image params s = some booted) :
    booted.allocator.pageBitmap = bootBitmap params.map := by
  obtain ⟨locked, hstage, -, rfl⟩ :=
    (memoryInit_iff hready.prepared.valid hready.prepared.fresh).mp hinit
  have hlocked := locked_of_lockStage hready.prepared.valid hready.prepared.fresh hstage
  exact (mapAll_rewritten console params.pageTableMan locked
    (identity (identityMapped image params))).pageBitmap.trans hlocked.pageBitmap

/-- After `memoryInit`, a run of `getPool`, stores into the pools and calls of the allocator
that free nothing, in which the pools find pages below the bitmap and addresses that are not
mapped, is a run of a memory of private pools, and no pool and no store of it faults. -/
theorem pools_after_boot (hready : PoolReady console image params header s)
    (hinit : memoryInit console image params s = some booted) (contents : Word64 → Byte)
    (hmeets : Meets (step console params.pageTableMan) (AllowedAfterBoot image params)
      (noPools booted) events)
    (hrun : run (step console params.pageTableMan) (noPools booted) events = some m) :
    ∃ pools, Runs Pools.Step ⟨[], contents⟩ events pools ∧ pools.given = m.pools ∧
      (∀ addr, InPools m.pools addr →
        (physical m.kernel.memory params.pageDirectoryAddress addr).map m.kernel.memory =
          some (pools.contents addr)) ∧
      (∀ addr ∈ tableStore params.pageTableMan (bootBitmap params.map),
        physical m.kernel.memory params.pageDirectoryAddress addr = some addr) ∧
      ∀ event, AllowedAfterBoot image params m event → (∀ call, event ≠ .call call) →
        ∃ m', step console params.pageTableMan m event = some m' := by
  have hbitmap := booted_pageBitmap hready hinit
  obtain ⟨locked, hstage, -, rfl⟩ :=
    (memoryInit_iff hready.prepared.valid hready.prepared.fresh).mp hinit
  have hrefines := pool_memory_refines (setting_booted hready hstage) contents hmeets hrun
  rwa [identityCalls, hbitmap] at hrefines

/-- The kernel keeps its variables and its call stack in the bytes of `own`, apart from page tables
and bitmap.  Whatever the steps of such a run leave there, the run leaves the other bytes of the
kernel image, the stack and the frame buffer as they are, tables and bitmap aside. -/
theorem boot_regions_untouched {own : Set Word64}
    (hready : PoolReady console image params header s)
    (haligned : Aligned params) (hinit : memoryInit console image params s = some booted)
    (hown : Disjoint (tableStore params.pageTableMan (bootBitmap params.map)) own)
    (hruns : Runs (OwnStep console params.pageTableMan (AllowedAfterBoot image params) own)
      (noPools booted) events m)
    (hpage : pageIndex addr ∈ bootPages image params)
    (houtside : addr ∉ tableStore params.pageTableMan (bootBitmap params.map))
    (hother : addr ∉ own) :
    m.kernel.memory addr = booted.memory addr := by
  have hbitmap := booted_pageBitmap hready hinit
  obtain ⟨locked, hstage, -, rfl⟩ :=
    (memoryInit_iff hready.prepared.valid hready.prepared.fresh).mp hinit
  have hlocked := locked_of_lockStage hready.prepared.valid hready.prepared.fresh hstage
  have hsetting := setting_booted hready hstage
  obtain ⟨leaf, hserves⟩ := (related_start hsetting fun _ => 0).serves
  rw [← hbitmap] at hown
  refine locked_pages_untouched hsetting hown hserves hruns addr ?_
  rintro ((htable | hfree) | howned)
  · rw [identityCalls, hbitmap] at htable
    exact houtside htable
  · obtain ⟨-, hreach, hclear⟩ := mem_freePages.mp hfree
    rw [PageAllocator.reach, identityCalls, hbitmap] at hreach
    refine hclear ((booted_marked hready hstage (by omega)).mpr ?_)
    exact (keeps_locked haligned hlocked).marked _ hpage (by omega)
  · exact hother howned

/-! ## A smaller free segment before the one with the bitmap -/

/-- Five free pages, ten more with the bitmap in the first of them, and the loader data. -/
def splitParams : KernelParameters :=
  { loaderParams 0x10000 with map := [⟨7, 0x1000, 5⟩, ⟨7, 0x6000, 10⟩, ⟨2, 0x10000, 16⟩] }

def splitImage : KernelImage := loaderImage 0x10000

def splitHeader : EfiMain.PsfHeader := ⟨0x36, 0x04, 0, 16⟩

theorem split_valid : Valid splitParams.map :=
  ((valid_nil.cons (by decide) (by decide) (by decide) (by decide)).cons
    (by decide) (by decide) (by decide) (by decide)).cons
    (by decide) (by decide) (by decide) (by decide)

theorem split_room : Room splitParams.pageTableMan
    (placed (identityCalls splitImage splitParams)).count := by
  have hcount : (placed (identityCalls splitImage splitParams)).count = 3 := by decide +kernel
  rw [hcount]
  exact ⟨by decide, by decide, by decide, by decide, by decide⟩

/-- The bitmap has four bytes at `0x6000`. -/
theorem split_disjoint : Disjoint (region splitParams.pageTableMan ∪ headless.touched)
    (bitmapStore (bootBitmap splitParams.map) (bitmapBytes splitParams.map + 1)) :=
  disjoint_bitmapStore (by decide) (by decide)

theorem split_ready : PoolReady headless splitImage splitParams splitHeader bootKernel where
  prepared :=
    { valid := split_valid
      fresh := fresh_atBoot _
      PDI := rfl
      aligned := rfl
      tables := fun _ hk => Translation.Room.inside_table split_room hk
      root := fun locked hstage index hindex => by
        have hlocked := locked_of_lockStage split_valid (fresh_atBoot _) hstage
        rw [hlocked.cells (split_room.mono (Nat.zero_le _))
          (split_disjoint.mono_left Set.subset_union_left) hindex]
        exact cells_unmapped _ index
      apart := disjoint_headless (by decide)
      low := by
        rw [List.forall_mem_append]
        constructor
        · simp only [regions, List.forall_mem_cons]
          exact ⟨by decide, by decide, by decide, by decide, by decide, by simp⟩
        · simp only [bootStructures, List.forall_mem_cons]
          exact ⟨by decide, by decide, by decide, by decide, by decide, by simp⟩ }
  pageI := rfl
  bitmap := split_disjoint
  last := by decide
  total := by decide

/-- `memoryInit` returns and leaves page 1 free. -/
theorem split_booted : ∃ booted,
    memoryInit headless splitImage splitParams bootKernel = some booted ∧
      Free booted.allocator 1 ∧
      Setting splitParams.pageTableMan (placed (identityCalls splitImage splitParams))
        (lastFrame (identityCalls splitImage splitParams)) (poolStart splitParams)
        (poolLimit splitParams) booted := by
  have hfresh : Fresh bootKernel.allocator := fresh_atBoot _
  obtain ⟨locked, hstage⟩ := lockStage_eq_some splitImage split_valid hfresh (by decide)
  have hlocked := locked_of_lockStage split_valid hfresh hstage
  have hfree : (lockStage splitImage splitParams bootKernel).map (fun locked =>
      decide (Free locked.allocator 1)) = some true := by
    decide +kernel
  rw [hstage, Option.map_some, Option.some.injEq, decide_eq_true_iff] at hfree
  have hends : ∀ range ∈ ranges splitImage splitParams (bootBitmap splitParams.map),
      Ends range.1 range.2 := fun range hrange => (split_ready.prepared.ranges.1 range hrange).1
  have hrewritten := mapAll_rewritten headless splitParams.pageTableMan locked
    (identityCalls splitImage splitParams)
  refine ⟨_, (memoryInit_iff split_valid hfresh).mpr ⟨locked, hstage, hends, rfl⟩, ?_,
    setting_booted split_ready hstage⟩
  refine (free_congr hrewritten.pageBitmap fun page hpage => ?_).mpr hfree
  rw [PageAllocator.reach, hlocked.pageBitmap] at hpage
  exact booted_marked split_ready hstage hpage

/-- There is room for a pool of one page at page 32. -/
theorem split_fits : Fits splitParams.pageTableMan (placed (identityCalls splitImage splitParams))
    (lastFrame (identityCalls splitImage splitParams)) (poolStart splitParams) [0] where
  canonical := by decide
  unmapped page hfirst hlast := by
    have hstart : poolStart splitParams = 32 := by decide
    have hend : poolsEnd 32 [0] = 34 := by decide
    rw [hstart] at hfirst hlast
    obtain rfl | rfl : page = 32 ∨ page = 33 := by omega
    · decide +kernel
    · decide +kernel
  room := by
    refine split_room.mono (le_of_eq ?_)
    decide +kernel

/-- A pool of one page. -/
theorem split_pool : ∃ booted given leaf',
    memoryInit headless splitImage splitParams bootKernel = some booted ∧
      Setting splitParams.pageTableMan (placed (identityCalls splitImage splitParams))
        (lastFrame (identityCalls splitImage splitParams)) (poolStart splitParams)
        (poolLimit splitParams) booted ∧
      AllowedAfterBoot splitImage splitParams (noPools booted) (.getPool 0) ∧
      step headless splitParams.pageTableMan (noPools booted) (.getPool 0) = some given ∧
      Serves splitParams.pageTableMan (placed (identityCalls splitImage splitParams))
        (lastFrame (identityCalls splitImage splitParams)) (poolStart splitParams)
        (poolLimit splitParams) booted [0] leaf' given ∧
      given.pools = [(0x20000, 0)] := by
  obtain ⟨booted, hinit, hfree, hsetting⟩ := split_booted
  have hallowed : AllowedAfterBoot splitImage splitParams (noPools booted) (.getPool 0) :=
    ⟨Finset.card_pos.mpr ⟨1, mem_freePages.mpr ⟨by decide, hfree⟩⟩, split_fits⟩
  obtain ⟨leaf, hserves⟩ := (related_start hsetting fun _ => 0).serves
  obtain ⟨given, leaf', hpool, hserves', -, hpools, -⟩ :=
    serves_getPool headless hsetting hserves hallowed
  refine ⟨booted, given, leaf', hinit, hsetting, hallowed, hpool, hserves', ?_⟩
  rw [hpools]
  have hstart : (BitVec.ofNat 64 (4096 * poolsEnd (poolStart splitParams) []) : Word64) =
      0x20000 := by decide
  exact congrArg (fun start => [(start, (0 : Word64))]) hstart

theorem inPools_split : InPools [(0x20000, 0)] 0x20000 :=
  ⟨(0x20000, 0), List.mem_singleton_self _, 0, by decide, by decide⟩

/-- A store at the start of the pool. -/
theorem split_run : ∃ booted m,
    memoryInit headless splitImage splitParams bootKernel = some booted ∧
      Meets (step headless splitParams.pageTableMan) (AllowedAfterBoot splitImage splitParams)
        (noPools booted) [.getPool 0, .store 0x20000 0x41] ∧
      run (step headless splitParams.pageTableMan) (noPools booted)
        [.getPool 0, .store 0x20000 0x41] = some m ∧ m.pools = [(0x20000, 0)] := by
  obtain ⟨booted, given, leaf', hinit, hsetting, hallowed, hpool, hserves, hplace⟩ := split_pool
  have hin : InPools given.pools 0x20000 := hplace ▸ inPools_split
  obtain ⟨m, -, hstore, -, hkept, -⟩ := serves_store hsetting hserves headless 0x41 hin
  refine ⟨booted, m, hinit, ⟨hallowed, fun next hnext => ?_⟩, ?_, hkept.trans hplace⟩
  · obtain rfl : given = next := Option.some.inj (hpool.symm.trans hnext)
    exact ⟨hin, fun _ _ => trivial⟩
  · rw [run_cons, hpool, Option.bind_some, run_cons, hstore]
    rfl

/-- The byte that was stored is read. -/
theorem pools_after_boot_split : ∃ booted m,
    memoryInit headless splitImage splitParams bootKernel = some booted ∧
      run (step headless splitParams.pageTableMan) (noPools booted)
        [.getPool 0, .store 0x20000 0x41] = some m ∧
      (physical m.kernel.memory 0x10000 0x20000).map m.kernel.memory = some 0x41 := by
  obtain ⟨booted, m, hinit, hmeets, hrun, hpools⟩ := split_run
  obtain ⟨pools, hruns, -, hseen, -⟩ :=
    pools_after_boot split_ready hinit (fun _ => 0) hmeets hrun
  have hin : InPools m.pools 0x20000 := hpools ▸ inPools_split
  refine ⟨booted, m, hinit, hrun, (hseen _ hin).trans (congrArg some ?_)⟩
  cases hruns with
  | cons hpool hrest =>
      cases hrest with
      | cons hstore hnone =>
          cases hstore
          cases hnone
          simp only [Function.update_self]

/-- The first eight bytes of the kernel image, where `VAI` is. -/
def splitOwn : Set Word64 := {addr | offset 0x18000 addr < 8}

theorem split_apart :
    Disjoint (tableStore splitParams.pageTableMan (bootBitmap splitParams.map)) splitOwn := by
  rw [Set.disjoint_left]
  rintro addr (⟨-, hlast⟩ | hstore) hmem
  · have hown : offset 0x18000 addr < 8 := hmem
    change addr.toNat < 0x18000 at hlast
    unfold offset at hown
    bv_omega
  · have hown : offset 0x18000 addr < 8 := hmem
    have hbitmap : offset 0x6000 addr < 5 := hstore
    unfold offset at hown hbitmap
    bv_omega

/-- `getPool` moves `VAI`, and the kernel image keeps the byte after it. -/
theorem boot_regions_untouched_split : ∃ booted m,
    memoryInit headless splitImage splitParams bootKernel = some booted ∧
      Runs (OwnStep headless splitParams.pageTableMan (AllowedAfterBoot splitImage splitParams)
        splitOwn) (noPools booted) [.getPool 0, .store 0x20000 0x41] m ∧
      m.kernel.memory 0x18008 = booted.memory 0x18008 := by
  obtain ⟨booted, given, leaf', hinit, hsetting, hallowed, hpool, hserves, hplace⟩ := split_pool
  have hapart : Disjoint (tableStore splitParams.pageTableMan booted.allocator.pageBitmap)
      splitOwn := by
    rw [booted_pageBitmap split_ready hinit]
    exact split_apart
  have hagree : AgreeOutside splitOwn given.kernel.memory
      (store64 given.kernel.memory 0x18000 given.kernel.VAI) :=
    agreeOutside_store _ _ fun _ hmem => hmem
  have hin : InPools given.pools 0x20000 := hplace ▸ inPools_split
  obtain ⟨m, -, hstore, -⟩ :=
    serves_store hsetting (hserves.write hagree hapart) headless 0x41 hin
  have hruns : Runs (OwnStep headless splitParams.pageTableMan
      (AllowedAfterBoot splitImage splitParams) splitOwn) (noPools booted)
      [.getPool 0, .store 0x20000 0x41] m :=
    .cons ⟨hallowed, given, _, hpool, hagree, rfl⟩
      (.cons ⟨hin, m, _, hstore, AgreeOutside.refl splitOwn _, rfl⟩ (.nil m))
  refine ⟨booted, m, hinit, hruns, boot_regions_untouched split_ready ⟨rfl, rfl, rfl⟩ hinit
    split_apart hruns ⟨(0x18000, 0x1000), by decide, 0, by decide, by decide⟩ ?_ ?_⟩
  · rintro (⟨-, hlast⟩ | hstore)
    · exact absurd hlast (by decide)
    · exact absurd hstore (by change ¬ offset _ _ < _; decide)
  · change ¬ offset _ _ < 8
    decide

end RedX.BootPools
