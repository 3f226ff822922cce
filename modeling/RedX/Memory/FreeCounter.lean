import RedX.Memory.PagePass

/-!
# The free counter

From the end of `bitmapInit` on, `freeMem` and the set bits of the bitmap make up the
size of memory, and so do the three counters.  A pass moves `freeMem` one way and the
number of set bits the other way, by as many pages as it flips.
-/

namespace RedX.FreeCounter

open RedX.MachineWord
open RedX.ByteMemory
open RedX.BitArray
open RedX.PartialRun
open RedX.PageBitmap
open RedX.PageAllocation
open RedX.MemoryMap
open RedX.ReadMap
open RedX.PagePass

/-- The number of set bits in the bitmap. -/
def setBits (s : PageAllocator) : ℕ :=
  countSet s.memory s.pageBitmap.buffer s.pageBitmap.size.toNat

/-- The marked pages whose bit lies in the bitmap. -/
def setPages (s : PageAllocator) : Finset ℕ :=
  (Finset.range s.reach).filter fun page => s.Marked page

/-- The addresses of the single-page steps of a call. -/
def Call.steps (call : Call) : List Word64 := call.pass.addrs

/-- No single-page step is for the page whose bit is the first one after the bitmap. -/
def OffBoundary (bitmap : Bitmap) (call : Call) : Prop :=
  ∀ addr ∈ Call.steps call, pageIndex addr ≠ 8 * bitmap.size.toNat

/-- The bitmap and the counters agree. -/
structure Balanced (memSize : Word64) (s : PageAllocator) : Prop where
  bitmap : s.freeMem + 4096 * BitVec.ofNat 64 (setBits s) = memSize
  counters : s.freeMem + s.usedMem + s.reservedMem = memSize

variable {s s' : PageAllocator} {sets : Bool} {counter : Counter} {addrs : List Word64} {page : ℕ}

theorem mem_setPages : page ∈ setPages s ↔ page < s.reach ∧ s.Marked page := by
  rw [setPages, Finset.mem_filter, Finset.mem_range]

theorem setBits_eq_card (s : PageAllocator) : setBits s = (setPages s).card := by
  rw [setBits, countSet_eq_count, Nat.count_eq_card_filter_range]
  rfl

theorem pageBytes_eq_mul (pages : ℕ) : pageBytes pages = 4096 * BitVec.ofNat 64 pages := by
  rw [pageBytes, BitVec.ofNat_mul]
  rfl

/-- The set pages of two states that differ in some pages, set in the one only. -/
theorem setPages_union {low high : PageAllocator} {pages : Finset ℕ}
    (hreach : high.reach = low.reach)
    (hsame : ∀ page < low.reach, page ∉ pages → (high.Marked page ↔ low.Marked page))
    (hpages : ∀ page ∈ pages, page < low.reach ∧ high.Marked page ∧ ¬ low.Marked page) :
    setPages high = setPages low ∪ pages ∧ Disjoint (setPages low) pages := by
  constructor
  · ext page
    rw [Finset.mem_union, mem_setPages, mem_setPages, hreach]
    by_cases hflipped : page ∈ pages
    · obtain ⟨hlt, hmarked, -⟩ := hpages page hflipped
      exact iff_of_true ⟨hlt, hmarked⟩ (.inr hflipped)
    · rw [or_iff_left hflipped]
      exact and_congr_right fun hlt => hsame page hlt hflipped
  · rw [Finset.disjoint_left]
    intro page hset hflipped
    exact (hpages page hflipped).2.2 (mem_setPages.mp hset).2

/-- A pass that sets bits adds the flipped pages to the set ones. -/
theorem setPages_of_sets
    (hflips : Flips s true counter (flipped s true addrs) s')
    (hoff : ∀ addr ∈ addrs, pageIndex addr ≠ s.reach) :
    setPages s' = setPages s ∪ flipped s true addrs ∧
      Disjoint (setPages s) (flipped s true addrs) := by
  refine setPages_union hflips.reach (fun page hlt hkept => ?_) fun page hflipped => ?_
  · rw [hflips.marked page hlt.le, if_neg hkept]
  · obtain ⟨⟨addr, haddr, rfl⟩, hreach, hclear⟩ := mem_flipped.mp hflipped
    have hne := hoff addr haddr
    refine ⟨by omega, ?_, by simpa using hclear⟩
    rw [hflips.marked _ hreach, if_pos hflipped]

/-- A pass that clears bits takes the flipped pages from the set ones. -/
theorem setPages_of_clears
    (hflips : Flips s false counter (flipped s false addrs) s')
    (hoff : ∀ addr ∈ addrs, pageIndex addr ≠ s.reach) :
    setPages s = setPages s' ∪ flipped s false addrs ∧
      Disjoint (setPages s') (flipped s false addrs) := by
  have hreach := hflips.reach
  refine setPages_union hreach.symm (fun page hlt hkept => ?_) fun page hflipped => ?_
  · rw [hflips.marked page (by omega), if_neg hkept]
  · obtain ⟨⟨addr, haddr, rfl⟩, hle, hmarked⟩ := mem_flipped.mp hflipped
    have hne := hoff addr haddr
    refine ⟨by omega, hmarked.mpr rfl, ?_⟩
    rw [hflips.marked _ hle, if_pos hflipped]
    exact Bool.false_ne_true

/-- The set bits move against `freeMem`. -/
theorem pageBytes_setBits (hflips : Flips s sets counter (flipped s sets addrs) s')
    (hoff : ∀ addr ∈ addrs, pageIndex addr ≠ s.reach) :
    pageBytes (setBits s') = moved sets (pageBytes (setBits s)) (flipped s sets addrs).card := by
  rw [setBits_eq_card, setBits_eq_card]
  cases sets with
  | true =>
      obtain ⟨hunion, hdisjoint⟩ := setPages_of_sets hflips hoff
      rw [hunion, Finset.card_union_of_disjoint hdisjoint, pageBytes_add]
      rfl
  | false =>
      obtain ⟨hunion, hdisjoint⟩ := setPages_of_clears hflips hoff
      rw [hunion, Finset.card_union_of_disjoint hdisjoint, pageBytes_add]
      exact (BitVec.add_sub_cancel _ _).symm

theorem moved_add_moved (sets : Bool) (left right : Word64) (pages : ℕ) :
    moved (!sets) left pages + moved sets right pages = left + right := by
  cases sets with
  | true =>
      change left - pageBytes pages + (right + pageBytes pages) = left + right
      bv_omega
  | false =>
      change left + pageBytes pages + (right - pageBytes pages) = left + right
      bv_omega

/-- One pass keeps the balance, whatever addresses it has. -/
theorem Balanced.of_flips {memSize : Word64} (hbalanced : Balanced memSize s)
    (hflips : Flips s sets counter (flipped s sets addrs) s')
    (hoff : ∀ addr ∈ addrs, pageIndex addr ≠ s.reach) : Balanced memSize s' := by
  obtain ⟨hbitmap, hcounters⟩ := hbalanced
  constructor
  · rw [← pageBytes_eq_mul] at hbitmap ⊢
    rw [hflips.freeMem, pageBytes_setBits hflips hoff, moved_add_moved, hbitmap]
  · cases counter with
    | used =>
        have hused : s'.usedMem = moved sets s.usedMem _ := hflips.charged
        have hreserved : s'.reservedMem = s.reservedMem := hflips.kept .reserved (by simp)
        rw [hflips.freeMem, hused, hreserved, moved_add_moved, hcounters]
    | reserved =>
        have hreserved : s'.reservedMem = moved sets s.reservedMem _ := hflips.charged
        have hused : s'.usedMem = s.usedMem := hflips.kept .used (by simp)
        have hswap : ∀ free used reserved : Word64,
            free + used + reserved = free + reserved + used := by
          intro free used reserved
          ac_rfl
        rw [hflips.freeMem, hused, hreserved, hswap, moved_add_moved, ← hswap, hcounters]

theorem perform_balanced {memSize : Word64} {call : Call} (hsize : s.pageBitmap.WellSized)
    (hbalanced : Balanced memSize s) (hoff : OffBoundary s.pageBitmap call)
    (hperform : perform s call = some s') : Balanced memSize s' :=
  hbalanced.of_flips (perform_flips hsize hperform) hoff

theorem run_balanced {memSize : Word64} {calls : List Call} (hsize : s.pageBitmap.WellSized)
    (hbalanced : Balanced memSize s) (hoff : ∀ call ∈ calls, OffBoundary s.pageBitmap call)
    (hrun : run perform s calls = some s') : Balanced memSize s' := by
  have hkept : s'.pageBitmap = s.pageBitmap ∧ Balanced memSize s' := by
    refine run_invariant (fun state => state.pageBitmap = s.pageBitmap ∧ Balanced memSize state)
      ⟨rfl, hbalanced⟩ ?_ hrun
    rintro state call hcall next ⟨hbitmap, hstate⟩ hperform
    have hwell : state.pageBitmap.WellSized := hbitmap ▸ hsize
    refine ⟨(perform_flips hwell hperform).pageBitmap.trans hbitmap, ?_⟩
    exact perform_balanced hwell hstate (hbitmap ▸ hoff call hcall) hperform
  exact hkept.2

/-! ## The end of `bitmapInit` -/

theorem setBits_bitmapInit {size bufferAddr : Word64}
    (hinit : bitmapInit s size bufferAddr = some s') : setBits s' = 0 := by
  obtain ⟨hsmall, rfl⟩ := bitmapInit_eq_some hinit
  rw [setBits_eq_card, Finset.card_eq_zero, Finset.eq_empty_iff_forall_notMem]
  intro page hpage
  obtain ⟨hreach, hmarked⟩ := mem_setPages.mp hpage
  have hbytes : size.toNat ≤ 2 ^ 49 := by omega
  have hclear : bitAt (store s.memory bufferAddr size.toNat fun _ => 0) bufferAddr page = false :=
    bitAt_cleared hbytes hreach
  rw [PageAllocator.Marked, hclear] at hmarked
  exact Bool.false_ne_true hmarked

theorem bitmapStage_balanced {map : EfiMemoryMap} (hused : s.usedMem = 0)
    (hreserved : s.reservedMem = 0) (hstage : bitmapStage s map = some s') :
    s'.pageBitmap.WellSized ∧ Balanced (getMemorySize s map).1 s' := by
  let started : PageAllocator := { s with initialized := true }
  have hmemSize : (getMemorySize started map).1 = (getMemorySize s map).1 :=
    getMemorySize_initialized s map true
  obtain ⟨-, htotals⟩ := getMemorySize_kept started map
  have hset := setBits_bitmapInit hstage
  obtain ⟨hsmall, hcleared⟩ := bitmapInit_eq_some hstage
  have hfreeMem : s'.freeMem = (getMemorySize s map).1 := by
    rw [hcleared]
    exact hmemSize
  have husedMem : s'.usedMem = 0 := by
    rw [hcleared]
    exact (htotals .used).trans hused
  have hreservedMem : s'.reservedMem = 0 := by
    rw [hcleared]
    exact (htotals .reserved).trans hreserved
  refine ⟨?_, ?_, ?_⟩
  · rw [hcleared]
    exact hsmall.le.trans (by omega)
  · rw [hset, hfreeMem]
    exact BitVec.add_zero _
  · rw [husedMem, hreservedMem, hfreeMem]
    exact (BitVec.add_zero _).trans (BitVec.add_zero _)

/-- After any sequence of the nine operations the free memory and the set bits make up
the size of memory, and so do the three counters. -/
theorem free_counter_tracks_bitmap {map : EfiMemoryMap} {cleared : PageAllocator}
    {calls : List Call} (hused : s.usedMem = 0) (hreserved : s.reservedMem = 0)
    (hstage : bitmapStage s map = some cleared)
    (hoff : ∀ call ∈ calls, OffBoundary cleared.pageBitmap call)
    (hrun : run perform cleared calls = some s') :
    Balanced (getMemorySize s map).1 s' := by
  obtain ⟨hsize, hbalanced⟩ := bitmapStage_balanced hused hreserved hstage
  exact run_balanced hsize hbalanced hoff hrun

/-- Two pages of memory: page 3 is locked, `frees` runs over it, and `getPage` finds
page 0. -/
theorem free_counter_tracks_bitmap_two :
    ∃ cleared s', bitmapStage (atBoot fun _ => 0) (oneSegment 0x1000 2) = some cleared ∧
      run perform cleared [.lock 0x3000, .frees 0x2000 2, .getPage 0] = some s' ∧
      Balanced 0x2000 s' := by
  have hstage : (bitmapStage (atBoot fun _ => 0) (oneSegment 0x1000 2)).map (fun s =>
      (s.pageBitmap.size, (run perform s [.lock 0x3000, .frees 0x2000 2, .getPage 0]).isSome)) =
        some (1, true) := by
    decide +kernel
  rw [Option.map_eq_some_iff] at hstage
  obtain ⟨cleared, hcleared, hpair⟩ := hstage
  rw [Prod.mk.injEq, Option.isSome_iff_exists] at hpair
  obtain ⟨hsize, s', hrun⟩ := hpair
  refine ⟨cleared, s', hcleared, hrun, ?_⟩
  have hmemSize : (getMemorySize (atBoot fun _ => 0) (oneSegment 0x1000 2)).1 = 0x2000 := by
    decide +kernel
  rw [← hmemSize]
  refine free_counter_tracks_bitmap rfl rfl hcleared ?_ hrun
  have hfrees : Call.steps (.frees 0x2000 2) = [0x2000, 0x3000] := by decide
  have hbits : 8 * cleared.pageBitmap.size.toNat = 8 := by rw [hsize]; rfl
  intro call hcall addr haddr
  rw [hbits]
  simp only [List.mem_cons, List.not_mem_nil, or_false] at hcall
  rcases hcall with rfl | rfl | rfl
  · rw [List.mem_singleton.mp haddr]
    decide
  · rw [hfrees, List.mem_pair] at haddr
    rcases haddr with rfl | rfl <;> decide
  · rw [List.mem_singleton.mp haddr]
    decide

end RedX.FreeCounter
