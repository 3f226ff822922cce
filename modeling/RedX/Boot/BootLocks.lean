import RedX.Boot.MemoryInit

/-!
# Boot regions and the allocator

`memoryInit` locks every page that the kernel image, the stack, the page directory and the
frame buffer touch, as far as the bitmap goes.  As long as no call of `map` writes over the
bitmap and nothing is freed, none of these pages is ever granted (`boot_regions_kept`).
-/

namespace RedX.BootLocks

open RedX.MachineWord
open RedX.ByteMemory
open RedX.BitArray
open RedX.PartialRun
open RedX.PageAllocation
open RedX.MemoryMap
open RedX.ReadMap
open RedX.PagePass
open RedX.FreePages
open RedX.WordArray
open RedX.TableEntry
open RedX.PageTables
open RedX.PageTree
open RedX.MapRun
open RedX.KernelRun
open RedX.SparedBitmap
open RedX.MemoryInit

/-- The regions that no later call may hand out, each with its first address and its size. -/
def bootRegions (image : KernelImage) (params : KernelParameters) : List (Word64 × Word64) :=
  [(image.kernelStart, image.kernelSize), (params.stack, params.stackSize),
    (params.pageDirectoryAddress, params.pageDirectorySize),
    (params.frameBuffer.baseAddr, params.frameBuffer.size)]

/-- The pages that overlap a boot region. -/
def bootPages (image : KernelImage) (params : KernelParameters) : Set ℕ :=
  {page | ∃ range ∈ bootRegions image params, ∃ i < range.2.toNat,
    pageIndex (range.1 + BitVec.ofNat 64 i) = page}

/-- `getPage` has returned and `getPool` has used no page of a boot region. -/
def Untouched (image : KernelImage) (params : KernelParameters) (h : History) : Prop :=
  (∀ found ∈ h.granted, pageIndex found ∉ bootPages image params) ∧
    ∀ call ∈ h.mapped, pageIndex call.2 ∉ bootPages image params

/-- Stack, page directory and frame buffer start at a page. -/
structure Aligned (params : KernelParameters) : Prop where
  stack : params.stack.toNat % 4096 = 0
  pageDirectory : params.pageDirectoryAddress.toNat % 4096 = 0
  frameBuffer : params.frameBuffer.baseAddr.toNat % 4096 = 0

variable {console : Console} {image : KernelImage} {params : KernelParameters}
  {s locked booted : Kernel} {events : List Event} {start size count : Word64} {page i : ℕ}

/-! ## The locks -/

/-- `locks` reaches the page of a byte if its count goes that far. -/
theorem locks_byte (hi : i < 2 ^ 64) (hcount : (start.toNat % 4096 + i) / 4096 < count.toNat) :
    ∃ addr ∈ (Call.locks start count).pass.addrs,
      pageIndex addr = pageIndex (start + BitVec.ofNat 64 i) := by
  let steps := (start.toNat % 4096 + i) / 4096 % 2 ^ 52
  refine ⟨wideStep start steps, List.mem_map.mpr ⟨steps, ?_, rfl⟩, ?_⟩
  · exact List.mem_range.mpr ((Nat.mod_le _ _).trans_lt hcount)
  · rw [pageIndex_wideStep _ (Nat.mod_lt _ (by omega))]
    unfold pageIndex
    rw [BitVec.toNat_add, BitVec.toNat_ofNat]
    omega

/-- One page more than the size fills covers a region that starts at a page. -/
theorem locks_aligned (hstart : start.toNat % 4096 = 0) (hi : i < size.toNat) :
    ∃ addr ∈ (Call.locks start (size / 0x1000 + 1)).pass.addrs,
      pageIndex addr = pageIndex (start + BitVec.ofNat 64 i) := by
  have hsize := size.isLt
  refine locks_byte (by omega) ?_
  rw [BitVec.toNat_add, BitVec.toNat_udiv]
  change _ < (size.toNat / 4096 + 1) % 2 ^ 64
  omega

/-- Two pages more cover it wherever it starts. -/
theorem locks_unaligned (hi : i < size.toNat) :
    ∃ addr ∈ (Call.locks start (size / 0x1000 + 1 + 1)).pass.addrs,
      pageIndex addr = pageIndex (start + BitVec.ofNat 64 i) := by
  have hsize := size.isLt
  refine locks_byte (by omega) ?_
  rw [BitVec.toNat_add, BitVec.toNat_add, BitVec.toNat_udiv]
  change _ < ((size.toNat / 4096 + 1) % 2 ^ 64 + 1) % 2 ^ 64
  omega

/-- Every page of a boot region is an address of one of the locks. -/
theorem bootPages_locked (haligned : Aligned params) (hpage : page ∈ bootPages image params) :
    ∃ call ∈ lockCalls image params, ∃ addr ∈ call.pass.addrs, pageIndex addr = page := by
  obtain ⟨range, hrange, i, hi, rfl⟩ := hpage
  simp only [bootRegions, List.mem_cons, List.not_mem_nil, or_false] at hrange
  rcases hrange with rfl | rfl | rfl | rfl
  · exact ⟨_, by simp [lockCalls], locks_unaligned hi⟩
  · exact ⟨.locks params.stack _, by simp [lockCalls], locks_aligned haligned.stack hi⟩
  · exact ⟨.locks params.pageDirectoryAddress _, by simp [lockCalls],
      locks_aligned haligned.pageDirectory hi⟩
  · exact ⟨.locks params.frameBuffer.baseAddr _, by simp [lockCalls],
      locks_aligned haligned.frameBuffer hi⟩

theorem keeps_locked (haligned : Aligned params) (hlocked : Locked image params s locked) :
    Keeps (bootBitmap params.map) (bootPages image params) (History.start locked) := by
  refine ⟨hlocked.sized, fun page hmem hpage => ?_, by simp [History.start],
    by simp [History.start]⟩
  obtain ⟨call, hcall, addr, haddr, rfl⟩ := bootPages_locked haligned hmem
  refine hlocked.marked call hcall addr haddr (hpage.le.trans ?_)
  have hsmall := hlocked.small
  rw [bootBitmap, BitVec.toNat_ofNat]
  omega

/-- In every run after `memoryInit` that frees nothing and in which, as in `memoryInit`, no
call of `map` writes a byte of the bitmap, the pages of the boot regions are not handed out. -/
theorem boot_regions_kept (hvalid : Valid params.map) (hfresh : Fresh s.allocator)
    (haligned : Aligned params) (hstage : lockStage image params s = some locked)
    (hmaps : Meets (step console params.pageTableMan) (Spares console params.pageTableMan)
      (History.start locked) (mapEvents (identity (identityMapped image params))))
    (hinit : memoryInit console image params s = some booted)
    (hholding : ∀ event ∈ events, Holding event)
    (hspares : Meets (step console params.pageTableMan) (Spares console params.pageTableMan)
      (History.start booted) events) :
    Throughout (step console params.pageTableMan) (Untouched image params)
      (History.start booted) events := by
  obtain ⟨locked', hstage', -, rfl⟩ := (memoryInit_iff hvalid hfresh).mp hinit
  obtain rfl : locked' = locked := Option.some.inj (hstage'.symm.trans hstage)
  have hlocked := locked_of_lockStage hvalid hfresh hstage
  have hmapped := keeps_throughout (keeps_locked haligned hlocked) (holding_mapEvents _) hmaps
  have hbooted := hmapped.final (run_mapEvents _ _ _ _)
  exact (keeps_throughout hbooted hholding hspares).imp fun h hkeeps =>
    ⟨hkeeps.granted, hkeeps.mapped⟩

/-! ## A directory apart from the bitmap -/

/-- With loader data after the free pages, a pool of one page leaves the boot regions alone. -/
theorem boot_regions_kept_loader :
    ∃ booted, memoryInit headless (loaderImage 0x10000) (loaderParams 0x10000) bootKernel =
        some booted ∧
      Throughout (step headless (loaderParams 0x10000).pageTableMan)
        (Untouched (loaderImage 0x10000) (loaderParams 0x10000)) (History.start booted)
        [.getPool 0] := by
  have hbase : (0x10000 : Word64) = 0x10000 ∨ (0x10000 : Word64) = 0x20000 := Or.inl rfl
  obtain ⟨locked, hstage, hlocked, hinit, hmaps⟩ := loader_stages hbase
  refine ⟨_, hinit, boot_regions_kept (loaderMap_valid hbase) (fresh_atBoot _) ⟨rfl, rfl, rfl⟩
    hstage hmaps hinit (by decide) ⟨⟨?_, fun _ _ => trivial⟩, fun _ _ => trivial⟩⟩
  have hroot : NonePresent fun _ => 0 := fun _ _ => BitVec.getLsbD_zero
  have hrep := mapAll_represents (loader_represents hbase hlocked) hroot (loader_apart hbase)
    (loader_room hbase)
  have hsized := (keeps_throughout (keeps_locked ⟨rfl, rfl, rfl⟩ hlocked) (holding_mapEvents _)
    hmaps).final (run_mapEvents _ _ _ _) |>.sized
  refine sparesPass_of_represents (h := History.start _) hrep hroot hsized ?_
    (loader_apart hbase) ?_
  · -- the page of the pool needs no table of its own
    have hVAI : virtualPage (mapAll headless (loaderParams 0x10000).pageTableMan locked
        (identity (identityMapped (loaderImage 0x10000) (loaderParams 0x10000)))).VAI = 32 := by
      rw [(mapAll_rewritten headless _ locked _).VAI, hlocked.VAI]
      decide
    change Room _ (insertPage _ (virtualPage (mapAll headless _ locked _).VAI)).count
    rw [hVAI]
    refine (loader_room hbase).mono (le_of_eq ?_)
    decide +kernel
  · refine loader_disjoint hbase ?_
    decide

/-! ## A directory over the bitmap -/

/-- Twenty-three free pages with the page directory, which was allocated after the map was
taken, at the first and the stack at the eighth of them, followed by loader data. -/
def overlapParams : KernelParameters where
  address := 0x1e000
  buffer := 0x1e100
  frameBuffer := ⟨0x80000, 0x1000, 32, 32, 32⟩
  font := 0x1e200
  fontBuffer := 0x1f000
  fontHeader := 0x1e300
  map := [⟨7, 0x1000, 23⟩, ⟨2, 0x18000, 16⟩]
  stack := 0x8000
  stackSize := 0x1000
  pageDirectoryAddress := 0x1000
  pageDirectorySize := 0x4000

def overlapImage : KernelImage := ⟨0x18000, 0x19000⟩

/-- The calls of `map` in `memoryInit`. -/
def overlapCalls : List MapRun.Call := identity (identityMapped overlapImage overlapParams)

theorem overlapMap_valid : Valid overlapParams.map :=
  (valid_nil.cons (by decide) (by decide) (by decide) (by decide)).cons
    (by decide) (by decide) (by decide) (by decide)

theorem overlap_room : Room overlapParams.pageTableMan (placed overlapCalls).count := by
  have hcount : (placed overlapCalls).count = 3 := by decide +kernel
  rw [hcount]
  exact ⟨by decide, by decide, by decide, by decide, by decide⟩

theorem overlap_ends : ∀ range ∈ ranges overlapImage overlapParams (bootBitmap overlapParams.map),
    Ends range.1 range.2 := by
  simp only [ranges, List.forall_mem_cons]
  exact ⟨by decide, by decide, by decide, by decide, by decide, by simp⟩

/-- What `memoryInit` starts its mappings with: the bitmap in the first entry of the root. -/
theorem overlap_stage :
    (lockStage overlapImage overlapParams bootKernel).map (fun locked =>
      (cells overlapParams.pageTableMan locked.memory 0, locked.allocator.pageI)) =
        some (0xffff00c0fc, 0) := by
  decide +kernel

/-- The other entries of the root are clear. -/
theorem overlap_cells (hlocked : Locked overlapImage overlapParams bootKernel locked)
    {index : ℕ} (hpos : 0 < index) (hindex : index < 512) :
    cells overlapParams.pageTableMan locked.memory index = 0 := by
  have hkept : cells overlapParams.pageTableMan locked.memory index =
      cells overlapParams.pageTableMan bootKernel.memory index := by
    apply wordAt_of_agreeOutside (by omega) hlocked.memory
    intro address hmem hstore
    have hbase : (bootBitmap overlapParams.map).buffer = overlapParams.pageTableMan.dirAddr := by
      decide
    have hbytes : bitmapBytes overlapParams.map = 5 := by decide
    simp only [words, bitmapStore, Set.mem_ofPred_eq, hbase, hbytes] at hmem hstore
    omega
  rw [hkept]
  exact cells_unmapped _ index

/-- The first mapping links a table from that entry, and its address and flags are the first
bytes of the bitmap from then on. -/
theorem overlap_marked (hlocked : Locked overlapImage overlapParams bootKernel locked)
    (hcell : cells overlapParams.pageTableMan locked.memory 0 = 0xffff00c0fc) (hpage : page < 64) :
    (mapAll headless overlapParams.pageTableMan locked overlapCalls).allocator.Marked page ↔
      (byteOf (0x20ff : Word64) (page / 8)).getMsbD (page % 8) = true := by
  let booted := mapAll headless overlapParams.pageTableMan locked overlapCalls
  have hroot : NonePresent (cells overlapParams.pageTableMan locked.memory) := by
    intro index hindex
    rcases Nat.eq_zero_or_pos index with rfl | hpos
    · rw [hcell]
      decide
    · rw [overlap_cells hlocked hpos hindex]
      exact BitVec.getLsbD_zero
  have hrep := mapAll_represents (represents_initial hlocked.PDI fun _ _ => rfl) hroot
    (disjoint_headless (by decide)) overlap_room
  have hlink : load64 booted.memory 0x1000 = 0x20ff := by
    have hentry := hrep.cells_root (Nat.succ_pos 511)
      (by decide +kernel : (placed overlapCalls).table 1 0 = some 1)
    have hslot : (0x1000 : Word64) = slot overlapParams.pageTableMan.dirAddr 0 := by decide
    have htable : tableAddr overlapParams.pageTableMan 1 = 0x2000 := by decide
    rw [hcell, htable] at hentry
    rw [hslot]
    exact hentry.trans (by decide)
  have hbuffer : booted.allocator.pageBitmap.buffer = 0x1000 := by
    change (mapAll headless _ locked _).allocator.pageBitmap.buffer = _
    rw [(mapAll_rewritten headless _ locked _).pageBitmap, hlocked.pageBitmap]
    decide
  change bitAt booted.memory booted.allocator.pageBitmap.buffer page = true ↔ _
  rw [bitAt, hbuffer, ← byteOf_load64 booted.memory 0x1000 (by omega), hlink]

/-- The page directory overwrites the lock of the stack, and the first `getPage` returns it. -/
theorem stack_granted :
    Valid overlapParams.map ∧ Aligned overlapParams ∧ ∃ booted,
      memoryInit headless overlapImage overlapParams bootKernel = some booted ∧
      ¬ Throughout (step headless overlapParams.pageTableMan)
        (Untouched overlapImage overlapParams) (History.start booted)
        [.call (.getPage 0x8000)] := by
  have hvalid := overlapMap_valid
  have hfresh : Fresh bootKernel.allocator := fresh_atBoot _
  obtain ⟨locked, hstage⟩ := lockStage_eq_some overlapImage hvalid hfresh (by decide)
  have hlocked := locked_of_lockStage hvalid hfresh hstage
  have hfirst := overlap_stage
  rw [hstage, Option.map_some, Option.some.injEq, Prod.mk.injEq] at hfirst
  obtain ⟨hcell, hpageI⟩ := hfirst
  let booted := mapAll headless overlapParams.pageTableMan locked overlapCalls
  have hinit : memoryInit headless overlapImage overlapParams bootKernel = some booted :=
    (memoryInit_iff hvalid hfresh).mpr ⟨locked, hstage, overlap_ends, rfl⟩
  refine ⟨hvalid, ⟨rfl, rfl, rfl⟩, booted, hinit, fun hthroughout => ?_⟩
  have hrewritten : Rewritten locked booted := mapAll_rewritten headless _ locked _
  have hbitmap := hrewritten.pageBitmap.trans hlocked.pageBitmap
  have hsize : booted.allocator.pageBitmap.WellSized := hbitmap ▸ hlocked.sized.2.1
  have hfree : Free booted.allocator 8 := by
    refine ⟨?_, (overlap_marked hlocked hcell (by omega)).not.mpr (by decide)⟩
    rw [PageAllocator.reach, hbitmap]
    decide
  have hbehind : ScanBehind booted.allocator := by
    intro page _
    rw [hrewritten.pageI, hpageI]
    exact Nat.zero_le _
  have hlowest : ∀ page < 8, booted.allocator.Marked page := by
    intro page hpage
    refine (overlap_marked hlocked hcell (by omega)).mpr ?_
    revert page
    decide
  obtain ⟨allocator, hget⟩ : ∃ allocator, booted.allocator.getPage = some (0x8000, allocator) :=
    getPage_lowest hsize hbehind hfree hlowest
  have hstep : step headless overlapParams.pageTableMan (History.start booted)
      (.call (.getPage 0x8000)) =
        some ⟨{ booted with allocator := allocator }, [0x8000], []⟩ := by
    change (perform booted.allocator _).map _ = _
    rw [perform_of_getPage hget]
    rfl
  have huntouched := (hthroughout.2 _ hstep).1 0x8000 (List.mem_singleton_self _)
  exact huntouched ⟨(0x8000, 0x1000), by decide, 0, by decide, rfl⟩

end RedX.BootLocks
