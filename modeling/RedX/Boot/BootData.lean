import RedX.Boot.MemoryInit
import RedX.Bootloader.EfiMain

/-!
# Boot data after the switch

`memoryInit` maps five regions with loops and five structures with one page each.  The
bounds of the loops cover their regions at every offset; a structure that crosses into a page
which is not mapped otherwise is lost, and a glyph buffer of more than a page always is
(`boot_data_reachable_iff`).
-/

namespace RedX.BootData

open RedX.MachineWord
open RedX.ByteMemory
open RedX.RadixTree
open RedX.MemoryMap
open RedX.ReadMap
open RedX.TableEntry
open RedX.PageTables
open RedX.PageTree
open RedX.MapRun
open RedX.Translation
open RedX.KernelRun
open RedX.EfiMain (PsfHeader psfHeaderSize)
open RedX.MemoryInit

/-- `sizeof(KernelParameters)`, `sizeof(Framebuffer)` and `sizeof(PSF_FONT)` -/
def kernelParametersSize : Word64 := 72

def framebufferSize : Word64 := 32

def psfFontSize : Word64 := 16

/-- The five regions, each with its first address and its size. -/
def regions (image : KernelImage) (params : KernelParameters) : List (Word64 × Word64) :=
  let bitmap := bootBitmap params.map
  [(image.kernelStart, image.kernelSize), (params.stack, params.stackSize),
    (params.pageDirectoryAddress, params.pageDirectorySize), (bitmap.buffer, bitmap.size),
    (params.frameBuffer.baseAddr, params.frameBuffer.size)]

/-- The five structures, with the glyph buffer as the bootloader sizes it. -/
def bootStructures (params : KernelParameters) (header : PsfHeader) : List (Word64 × Word64) :=
  [(params.address, kernelParametersSize), (params.buffer, framebufferSize),
    (params.font, psfFontSize), (params.fontBuffer, header.bufferSize),
    (params.fontHeader, psfHeaderSize)]

/-- Every byte of the range is mapped to itself, present and writable. -/
def Reachable (memory : Memory) (dirAddr : Word64) (range : Word64 × Word64) : Prop :=
  ∀ i < range.2.toNat,
    Translates memory dirAddr (range.1 + BitVec.ofNat 64 i)
      (pageAlign (range.1 + BitVec.ofNat 64 i))

/-- Every byte of the range lies on a page of one of the spans that are mapped. -/
def Covered (image : KernelImage) (params : KernelParameters) (range : Word64 × Word64) : Prop :=
  ∀ i < range.2.toNat, ∃ span ∈ identitySpans image params,
    span.Holds (pageIndex (range.1 + BitVec.ofNat 64 i))

/-- The range begins and ends below `2^40`. -/
def Low (range : Word64 × Word64) : Prop :=
  range.1.toNat < 2 ^ 40 ∧ range.1.toNat + range.2.toNat ≤ 2 ^ 40

instance (range : Word64 × Word64) : Decidable (Low range) :=
  inferInstanceAs (Decidable (_ ∧ _))

/-- What the kernel is started with: a valid map, a fresh allocator, an aligned page directory
with tables enough for the mappings, whose root is zero when they begin, away from what
`map` writes besides, and everything below `2^40`. -/
structure Prepared (console : Console) (image : KernelImage) (params : KernelParameters)
    (header : PsfHeader) (s : Kernel) : Prop where
  valid : Valid params.map
  fresh : Fresh s.allocator
  PDI : s.PDI = 0
  aligned : params.pageDirectoryAddress.toNat % 4096 = 0
  tables : ∀ k ≤ (placed (identity (identityMapped image params))).count,
    Inside params.pageTableMan k
  root : ∀ locked, lockStage image params s = some locked → ∀ index < 512,
    cells params.pageTableMan locked.memory index = 0
  apart : Disjoint (region params.pageTableMan) console.touched
  low : ∀ range ∈ regions image params ++ bootStructures params header, Low range

variable {console : Console} {image : KernelImage} {params : KernelParameters}
  {header : PsfHeader} {s : Kernel} {start size finish addr : Word64} {page i : ℕ}
  {addrs : List Word64}

/-! ## The bounds of the loops -/

theorem Low.toNat_byte (hlow : Low (start, size)) (hi : i < size.toNat) :
    (start + BitVec.ofNat 64 i).toNat = start.toNat + i := by
  have hend : start.toNat + size.toNat ≤ 2 ^ 40 := hlow.2
  rw [BitVec.toNat_add, BitVec.toNat_ofNat]
  omega

theorem virtualPage_of_low (hlow : addr.toNat < 2 ^ 48) : virtualPage addr = pageIndex addr := by
  unfold virtualPage pageIndex
  omega

/-- A loop that ends where the region does: its start is page-aligned. -/
theorem loop_exact (hlow : Low (start, size)) (haligned : start.toNat % 4096 = 0) :
    Ends start (start + size) ∧ start.toNat + 4096 * passCount start (start + size) ≤ 2 ^ 41 ∧
      ∀ i < size.toNat, Span.Holds ⟨pageIndex start, passCount start (start + size)⟩
        (pageIndex (start + BitVec.ofNat 64 i)) := by
  obtain ⟨hstart, hend⟩ : start.toNat < 2 ^ 40 ∧ start.toNat + size.toNat ≤ 2 ^ 40 := hlow
  have hfinish : (start + size).toNat = start.toNat + size.toNat := by
    rw [BitVec.toNat_add]
    omega
  refine ⟨by unfold Ends; omega, by unfold passCount; omega, fun i hi => ?_⟩
  refine ⟨i / 4096, by simp only [passCount]; omega, ?_⟩
  change (pageIndex start + _) % 2 ^ 36 = _
  unfold pageIndex
  rw [Low.toNat_byte ⟨hstart, hend⟩ hi]
  omega

/-- A loop that goes one page beyond the region: the start may lie anywhere in its page. -/
theorem loop_extra (hlow : Low (start, size)) :
    Ends start (start + size + 0x1000) ∧
      start.toNat + 4096 * passCount start (start + size + 0x1000) ≤ 2 ^ 41 ∧
      ∀ i < size.toNat, Span.Holds ⟨pageIndex start, passCount start (start + size + 0x1000)⟩
        (pageIndex (start + BitVec.ofNat 64 i)) := by
  obtain ⟨hstart, hend⟩ : start.toNat < 2 ^ 40 ∧ start.toNat + size.toNat ≤ 2 ^ 40 := hlow
  have hfinish : (start + size + 0x1000).toNat = start.toNat + size.toNat + 4096 := by
    rw [toNat_add_page, BitVec.toNat_add]
    omega
  refine ⟨by unfold Ends; omega, by unfold passCount; omega, fun i hi => ?_⟩
  refine ⟨(start.toNat % 4096 + i) / 4096, by simp only [passCount]; omega, ?_⟩
  change (pageIndex start + _) % 2 ^ 36 = _
  unfold pageIndex
  rw [Low.toNat_byte ⟨hstart, hend⟩ hi]
  omega

/-- All loops end, below `2^41`, and cover their regions. -/
theorem ranges_of_low (haligned : params.pageDirectoryAddress.toNat % 4096 = 0)
    (hlow : ∀ range ∈ regions image params, Low range) :
    (∀ range ∈ ranges image params (bootBitmap params.map), Ends range.1 range.2 ∧
      range.1.toNat + 4096 * passCount range.1 range.2 ≤ 2 ^ 41) ∧
    ∀ range ∈ regions image params, Covered image params range := by
  simp only [regions, List.forall_mem_cons] at hlow
  obtain ⟨hkernel, hstack, hdirectory, hstore, hframe, -⟩ := hlow
  obtain ⟨hends₁, hlow₁, hcover₁⟩ := loop_extra hkernel
  obtain ⟨hends₂, hlow₂, hcover₂⟩ := loop_extra hstack
  obtain ⟨hends₃, hlow₃, hcover₃⟩ := loop_exact hdirectory haligned
  obtain ⟨hends₄, hlow₄, hcover₄⟩ := loop_extra hstore
  obtain ⟨hends₅, hlow₅, hcover₅⟩ := loop_extra hframe
  constructor
  · simp only [ranges, List.forall_mem_cons]
    exact ⟨⟨hends₁, hlow₁⟩, ⟨hends₂, hlow₂⟩, ⟨hends₃, hlow₃⟩, ⟨hends₄, hlow₄⟩,
      ⟨hends₅, hlow₅⟩, by simp⟩
  · simp only [regions, List.forall_mem_cons]
    refine ⟨fun i hi => ⟨_, ?_, hcover₁ i hi⟩, fun i hi => ⟨_, ?_, hcover₂ i hi⟩,
      fun i hi => ⟨_, ?_, hcover₃ i hi⟩, fun i hi => ⟨_, ?_, hcover₄ i hi⟩,
      fun i hi => ⟨_, ?_, hcover₅ i hi⟩, by simp⟩ <;>
    simp [identitySpans, ranges]

/-! ## What was last mapped at a page -/

theorem toNat_addressesFrom {count limit : ℕ} (hend : start.toNat + 4096 * count ≤ limit)
    (hlimit : limit < 2 ^ 64) (hmem : addr ∈ addressesFrom start count) : addr.toNat < limit := by
  induction count generalizing start with
  | zero => cases hmem
  | succ count ih =>
      rcases List.mem_cons.mp hmem with rfl | hmem
      · omega
      · have hnext : (start + 0x1000).toNat = start.toNat + 4096 := by
          rw [toNat_add_page]
          omega
        exact ih (by omega) hmem

/-- In a run of identity mappings a page has itself as its frame once it was mapped. -/
theorem lastFrame_identity (hmapped : ∃ addr ∈ addrs, virtualPage addr = page) :
    ∃ addr ∈ addrs, virtualPage addr = page ∧ lastFrame (identity addrs) page = some addr := by
  induction addrs using List.reverseRecOn with
  | nil => simp at hmapped
  | append_singleton addrs last ih =>
      have hconcat : identity (addrs ++ [last]) = identity addrs ++ [(last, last)] := by
        rw [identity, List.map_append]
        rfl
      rw [hconcat, lastFrame_concat]
      by_cases hlast : virtualPage last = page
      · exact ⟨last, by simp, hlast, by rw [← hlast, Function.update_self]⟩
      · obtain ⟨addr, hmem, hpage⟩ := hmapped
        rcases List.mem_append.mp hmem with hmem | hmem
        · obtain ⟨addr, hmem, hpage, hframe⟩ := ih ⟨addr, hmem, hpage⟩
          refine ⟨addr, List.mem_append_left _ hmem, hpage, ?_⟩
          rw [Function.update_of_ne (Ne.symm hlast), hframe]
        · exact absurd (List.mem_singleton.mp hmem ▸ hpage) hlast

/-! ## What the kernel reaches -/

section Prepared

variable (hprepared : Prepared console image params header s)

include hprepared

theorem Prepared.ranges : (∀ range ∈ ranges image params (bootBitmap params.map),
      Ends range.1 range.2 ∧
        range.1.toNat + 4096 * passCount range.1 range.2 ≤ 2 ^ 41) ∧
    ∀ range ∈ regions image params, Covered image params range :=
  ranges_of_low hprepared.aligned fun range hrange =>
    hprepared.low range (List.mem_append_left _ hrange)

/-- All addresses that are mapped are below `2^48`. -/
theorem Prepared.toNat_mapped (hmem : addr ∈ identityMapped image params) :
    addr.toNat < 2 ^ 48 := by
  rw [identityMapped, mappedAddrs, List.mem_append, List.mem_flatMap] at hmem
  rcases hmem with ⟨range, hrange, hmem⟩ | hmem
  · have hlow := toNat_addressesFrom (hprepared.ranges.1 range hrange).2 (by omega) hmem
    omega
  · have hstarts : structures params = (bootStructures params header).map Prod.fst := rfl
    rw [hstarts] at hmem
    obtain ⟨range, hrange, rfl⟩ := List.mem_map.mp hmem
    exact (hprepared.low range (List.mem_append_right _ hrange)).1.trans (by omega)

/-- A low byte is mapped to itself exactly if its page is in one of the spans. -/
theorem Prepared.translates_iff {locked : Kernel} (hstage : lockStage image params s = some locked)
    (hlow : addr.toNat < 2 ^ 40) :
    Translates (mapAll console params.pageTableMan locked
        (identity (identityMapped image params))).memory params.pageDirectoryAddress addr
        (pageAlign addr) ↔
      ∃ span ∈ identitySpans image params, span.Holds (pageIndex addr) := by
  have hlocked := locked_of_lockStage hprepared.valid hprepared.fresh hstage
  have hroot : NonePresent fun _ => 0 := fun _ _ => BitVec.getLsbD_zero
  have hinit : Represents params.pageTableMan (fun _ => 0) (Placement.initial 512)
      (fun _ => none) locked :=
    represents_initial (hlocked.PDI.trans hprepared.PDI) (hprepared.root locked hstage)
  have hroom : Room params.pageTableMan _ :=
    room_of_inside hprepared.aligned hprepared.tables
  have hrep := mapAll_represents hinit hroot hprepared.apart hroom
  have hpage : virtualPage addr = pageIndex addr := virtualPage_of_low (by omega)
  rw [← hpage, ← exists_identityMapped_iff]
  constructor
  · intro htranslates
    by_contra hnone
    push Not at hnone
    have hnever : ∀ call ∈ identity (identityMapped image params),
        virtualPage call.1 ≠ virtualPage addr := by
      intro call hcall
      obtain ⟨other, hother, rfl⟩ := List.mem_map.mp hcall
      exact hnone other hother
    obtain ⟨entry, hlast, habsent⟩ :=
      unmapped_of_leaf hrep hroot hroom (lastFrame_of_never hnever)
    have hpresent := (htranslates.writable entry (List.mem_of_getLast? hlast)).1
    rw [habsent] at hpresent
    cases hpresent
  · intro hspan
    obtain ⟨frame, hframe, hsame, hleaf⟩ := lastFrame_identity hspan
    rw [virtualPage_of_low (hprepared.toNat_mapped hframe), hpage] at hsame
    have halign : pageAlign frame = pageAlign addr := by
      apply BitVec.eq_of_toNat_eq
      unfold pageIndex at hsame
      rw [toNat_pageAlign, toNat_pageAlign, hsame]
    rw [← halign]
    refine translates_of_leaf hrep hroom hleaf ?_
    unfold pageIndex at hsame
    omega

theorem Prepared.reachable_iff {locked : Kernel} (hstage : lockStage image params s = some locked)
    {range : Word64 × Word64}
    (hrange : range ∈ regions image params ++ bootStructures params header) :
    Reachable (mapAll console params.pageTableMan locked
        (identity (identityMapped image params))).memory params.pageDirectoryAddress range ↔
      Covered image params range := by
  refine forall₂_congr fun i hi => hprepared.translates_iff hstage ?_
  have hbyte := Low.toNat_byte (hprepared.low range hrange) hi
  have hend := (hprepared.low range hrange).2
  omega

end Prepared

/-- `memoryInit` returns and the kernel reaches all of its boot data if and only if the loop
of `bitmapInit` ends and every byte of the five structures lies on a page that is mapped. -/
theorem boot_data_reachable_iff (hprepared : Prepared console image params header s) :
    (∃ s', memoryInit console image params s = some s' ∧
      ∀ range ∈ regions image params ++ bootStructures params header,
        Reachable s'.memory params.pageDirectoryAddress range) ↔
      bitmapBytes params.map < 2 ^ 32 ∧
        ∀ range ∈ bootStructures params header, Covered image params range := by
  have hvalid := hprepared.valid
  have hfresh := hprepared.fresh
  obtain ⟨hends, hregions⟩ := hprepared.ranges
  constructor
  · rintro ⟨s', hinit, hdata⟩
    obtain ⟨locked, hstage, -, rfl⟩ := (memoryInit_iff hvalid hfresh).mp hinit
    refine ⟨(locked_of_lockStage hvalid hfresh hstage).small, fun range hrange => ?_⟩
    have hmem := List.mem_append_right (regions image params) hrange
    exact (hprepared.reachable_iff hstage hmem).mp (hdata range hmem)
  · rintro ⟨hsmall, hstructures⟩
    obtain ⟨locked, hstage⟩ := lockStage_eq_some image hvalid hfresh hsmall
    refine ⟨_, (memoryInit_iff hvalid hfresh).mpr
      ⟨locked, hstage, fun range hrange => (hends range hrange).1, rfl⟩, ?_⟩
    intro range hrange
    refine (hprepared.reachable_iff hstage hrange).mpr ?_
    rcases List.mem_append.mp hrange with hregion | hstructure
    · exact hregions range hregion
    · exact hstructures range hstructure

/-- A structure inside one page is covered by the single mapping of its start. -/
theorem covered_of_page {range : Word64 × Word64}
    (hinside : range.1.toNat % 4096 + range.2.toNat ≤ 4096)
    (hspan : ∃ span ∈ identitySpans image params, span.Holds (pageIndex range.1)) :
    Covered image params range := by
  intro i hi
  have hpage : pageIndex (range.1 + BitVec.ofNat 64 i) = pageIndex range.1 := by
    have hlast := range.1.isLt
    unfold pageIndex
    rw [BitVec.toNat_add, BitVec.toNat_ofNat]
    omega
  rwa [hpage]

/-! ## A page-aligned glyph buffer -/

theorem loader_prepared {header : PsfHeader} (hlow : Low (0x1d000, header.bufferSize)) :
    Prepared headless (loaderImage 0x10000) (loaderParams 0x10000) header bootKernel where
  valid := loaderMap_valid (Or.inl rfl)
  fresh := fresh_atBoot _
  PDI := rfl
  aligned := rfl
  tables := fun _ hk => Room.inside_table (loader_room (Or.inl rfl)) hk
  root := fun _ hstage => loader_cells (Or.inl rfl)
    (locked_of_lockStage (loaderMap_valid (Or.inl rfl)) (fresh_atBoot _) hstage)
  apart := loader_apart (Or.inl rfl)
  low := by
    rw [List.forall_mem_append]
    constructor
    · simp only [regions, List.forall_mem_cons]
      exact ⟨by decide, by decide, by decide, by decide, by decide, by simp⟩
    · simp only [bootStructures, List.forall_mem_cons]
      exact ⟨by decide, by decide, by decide, hlow, by decide, by simp⟩

/-- 256 glyphs of 16 bytes fill the one page that is mapped. -/
theorem boot_data_reachable_256 :
    ∃ s', memoryInit headless (loaderImage 0x10000) (loaderParams 0x10000) bootKernel = some s' ∧
      ∀ range ∈ regions (loaderImage 0x10000) (loaderParams 0x10000) ++
          bootStructures (loaderParams 0x10000) ⟨0x36, 0x04, 0, 16⟩,
        Reachable s'.memory 0x10000 range := by
  refine (boot_data_reachable_iff (loader_prepared (by decide))).mpr
    ⟨by decide, fun range hrange => covered_of_page ?_ ?_⟩
  · revert range
    simp only [bootStructures, List.forall_mem_cons]
    exact ⟨by decide, by decide, by decide, by decide, by decide, by simp⟩
  · revert range
    simp only [bootStructures, List.forall_mem_cons]
    exact ⟨by decide, by decide, by decide, by decide, by decide, by simp⟩

/-- Of 512 glyphs the second half is lost. -/
theorem second_half_lost :
    Prepared headless (loaderImage 0x10000) (loaderParams 0x10000) ⟨0x36, 0x04, 1, 16⟩ bootKernel ∧
      ¬ ∃ s', memoryInit headless (loaderImage 0x10000) (loaderParams 0x10000) bootKernel =
          some s' ∧
        ∀ range ∈ regions (loaderImage 0x10000) (loaderParams 0x10000) ++
            bootStructures (loaderParams 0x10000) ⟨0x36, 0x04, 1, 16⟩,
          Reachable s'.memory 0x10000 range := by
  have hprepared : Prepared headless (loaderImage 0x10000) (loaderParams 0x10000)
      ⟨0x36, 0x04, 1, 16⟩ bootKernel := loader_prepared (by decide)
  refine ⟨hprepared, ?_⟩
  rintro ⟨s', hinit, hdata⟩
  obtain ⟨locked, hstage, -, rfl⟩ :=
    (memoryInit_iff hprepared.valid hprepared.fresh).mp hinit
  let glyphs : Word64 × Word64 := (0x1d000, 8192)
  have hglyphs : glyphs ∈ regions (loaderImage 0x10000) (loaderParams 0x10000) ++
      bootStructures (loaderParams 0x10000) ⟨0x36, 0x04, 1, 16⟩ := by
    decide
  have hcovered := (hprepared.reachable_iff hstage hglyphs).mp (hdata glyphs hglyphs) 4096
    (by decide)
  revert hcovered
  decide

end RedX.BootData
