import RedX.Boot.MemoryInit

/-!
# Pools and identity mappings

`memoryInit` starts the pools behind the sum of the descriptor sizes and the size of the
frame buffer, as if memory had no holes.  The pools of a run stay off the identity mappings
exactly if their pages, counted from there, are apart from those of the regions.
-/

namespace RedX.PoolCollision

open RedX.MachineWord
open RedX.PartialRun
open RedX.MemoryMap
open RedX.ReadMap
open RedX.FreePages
open RedX.TableEntry
open RedX.PageTables
open RedX.MapRun
open RedX.KernelRun
open RedX.SparedBitmap
open RedX.MemoryInit

/-- How many pages the second page number is after the first in the 48-bit address space. -/
def pagesAfter (first second : ℕ) : ℕ := (second + (2 ^ 36 - first % 2 ^ 36)) % 2 ^ 36

/-- Each span ends before the other one begins. -/
def Span.Apart (left right : Span) : Prop :=
  left.count = 0 ∨ right.count = 0 ∨
    left.count ≤ pagesAfter left.first right.first ∧
      right.count ≤ pagesAfter right.first left.first

instance (left right : Span) : Decidable (Span.Apart left right) :=
  inferInstanceAs (Decidable (_ ∨ _ ∨ _ ∧ _))

/-- Pools of these sizes, laid out from `poolStart` on, are apart from the regions. -/
def PoolsApart (image : KernelImage) (params : KernelParameters) (sizes : List Word64) : Prop :=
  ∀ pool ∈ poolSpans (poolStart params) sizes, ∀ kept ∈ identitySpans image params,
    Span.Apart pool kept

instance (image : KernelImage) (params : KernelParameters) (sizes : List Word64) :
    Decidable (PoolsApart image params sizes) :=
  inferInstanceAs (Decidable (∀ _ ∈ _, ∀ _ ∈ _, _))

variable {console : Console} {image : KernelImage} {params : KernelParameters}
  {s booted : Kernel} {h : History} {events : List Event} {start : Word64} {first count page : ℕ}

theorem apart_iff (left right : Span) :
    Span.Apart left right ↔ ∀ page, left.Holds page → ¬ right.Holds page := by
  unfold Span.Apart pagesAfter
  constructor
  · rintro hapart page ⟨i, hi, rfl⟩ ⟨j, hj, heq⟩
    omega
  · intro hnone
    -- Where the spans meet, one of them contains the first page of the other.
    have hfirst := hnone (left.first % 2 ^ 36)
    have hsecond := hnone (right.first % 2 ^ 36)
    by_contra hmeet
    simp only [not_or, not_and_or, not_le] at hmeet
    obtain ⟨hleft, hright, hshort | hshort⟩ := hmeet
    · exact hsecond ⟨_, hshort, by omega⟩ ⟨0, by omega, rfl⟩
    · exact hfirst ⟨0, by omega, rfl⟩ ⟨_, hshort, by omega⟩

/-- `memoryInit` leaves `VAI` at the first page of the pools. -/
theorem standsAt_booted (hvalid : Valid params.map) (hfresh : Fresh s.allocator)
    (hinit : memoryInit console image params s = some booted) :
    StandsAt (poolStart params) (History.start booted) := by
  obtain ⟨locked, hstage, -, rfl⟩ := (memoryInit_iff hvalid hfresh).mp hinit
  change virtualPage (mapAll console _ locked _).VAI = _
  rw [(mapAll_rewritten console _ locked _).VAI]
  exact (locked_of_lockStage hvalid hfresh hstage).VAI

/-- The pages that the pools of a run after `memoryInit` map. -/
theorem exists_mapped_iff (hvalid : Valid params.map) (hfresh : Fresh s.allocator)
    (hinit : memoryInit console image params s = some booted)
    (hrun : run (step console params.pageTableMan) (History.start booted) events = some h) :
    (∃ call ∈ h.mapped, virtualPage call.1 = page) ↔
      ∃ span ∈ poolSpans (poolStart params) (events.filterMap poolSize), span.Holds page := by
  have hmem := Set.ext_iff.mp (pages_of_run (standsAt_booted hvalid hfresh hinit) hrun) page
  simpa [History.pages, History.start] using hmem

/-- After `memoryInit`, a run maps no pool page that was identity-mapped if and only if its
pools are apart from the regions. -/
theorem pools_keep_off_iff (hvalid : Valid params.map) (hfresh : Fresh s.allocator)
    (hinit : memoryInit console image params s = some booted)
    (hrun : run (step console params.pageTableMan) (History.start booted) events = some h) :
    (∀ call ∈ h.mapped, ∀ addr ∈ identityMapped image params,
      virtualPage call.1 ≠ virtualPage addr) ↔
        PoolsApart image params (events.filterMap poolSize) := by
  simp only [PoolsApart, apart_iff]
  constructor
  · intro hoff pool hpool kept hkept page hholds hholds'
    obtain ⟨call, hcall, hpage⟩ :=
      (exists_mapped_iff hvalid hfresh hinit hrun).mpr ⟨pool, hpool, hholds⟩
    obtain ⟨addr, haddr, hpage'⟩ := exists_identityMapped_iff.mpr ⟨kept, hkept, hholds'⟩
    exact hoff call hcall addr haddr (hpage.trans hpage'.symm)
  · intro hapart call hcall addr haddr heq
    obtain ⟨pool, hpool, hholds⟩ :=
      (exists_mapped_iff hvalid hfresh hinit hrun).mp ⟨call, hcall, rfl⟩
    obtain ⟨kept, hkept, hholds'⟩ := exists_identityMapped_iff.mp ⟨addr, haddr, heq.symm⟩
    exact hapart pool hpool kept hkept _ hholds hholds'

/-! ## Loader data with and without a hole before it -/

/-- At both places `memoryInit` and a pool of one page return. -/
theorem loader_returns {base : Word64} (hbase : base = 0x10000 ∨ base = 0x20000) :
    ∃ booted h,
      memoryInit headless (loaderImage base) (loaderParams base) bootKernel = some booted ∧
      run (step headless (loaderParams base).pageTableMan) (History.start booted) [.getPool 0] =
        some h := by
  obtain ⟨locked, hstage, hlocked, hinit, hmeets⟩ := loader_stages hbase
  -- page 2 is free before the mappings and so after them
  have hfree : (lockStage (loaderImage base) (loaderParams base) bootKernel).map (fun locked =>
      decide (Free locked.allocator 2)) = some true := by
    rcases hbase with rfl | rfl <;> decide +kernel
  rw [hstage, Option.map_some, Option.some.injEq, decide_eq_true_iff] at hfree
  let booted := mapAll headless (loaderParams base).pageTableMan locked
    (identity (identityMapped (loaderImage base) (loaderParams base)))
  have hfree' : Free booted.allocator 2 :=
    (free_mapAll (h := History.start locked) hlocked.sized hmeets).mpr hfree
  have hbitmap' : booted.allocator.pageBitmap = locked.allocator.pageBitmap :=
    (mapAll_rewritten headless _ locked _).pageBitmap
  obtain ⟨h, hstep⟩ := getPool_of_free (h := History.start booted) headless
    (loaderParams base).pageTableMan (hbitmap' ▸ hlocked.sized.1 ▸ hlocked.sized.2.1) hfree'
  exact ⟨booted, h, hinit, by rw [run_cons, hstep]; rfl⟩

/-- Without a hole between the free pages and the loader data a pool keeps off. -/
theorem pools_keep_off_no_hole :
    ∃ booted h,
      memoryInit headless (loaderImage 0x10000) (loaderParams 0x10000) bootKernel = some booted ∧
      run (step headless (loaderParams 0x10000).pageTableMan) (History.start booted)
        [.getPool 0] = some h ∧
      ∀ call ∈ h.mapped, ∀ addr ∈ identityMapped (loaderImage 0x10000) (loaderParams 0x10000),
        virtualPage call.1 ≠ virtualPage addr := by
  obtain ⟨booted, h, hinit, hrun⟩ := loader_returns (Or.inl rfl)
  exact ⟨booted, h, hinit, hrun, (pools_keep_off_iff
    (loaderMap_valid (Or.inl rfl)) (fresh_atBoot _) hinit hrun).mpr (by decide)⟩

/-- With a hole of sixteen pages before the loader data the first pool begins at the page
directory and takes over its identity mapping. -/
theorem pool_over_directory :
    Valid (loaderParams 0x20000).map ∧ ∃ booted h,
      memoryInit headless (loaderImage 0x20000) (loaderParams 0x20000) bootKernel = some booted ∧
      run (step headless (loaderParams 0x20000).pageTableMan) (History.start booted)
        [.getPool 0] = some h ∧
      ¬ ∀ call ∈ h.mapped, ∀ addr ∈ identityMapped (loaderImage 0x20000) (loaderParams 0x20000),
        virtualPage call.1 ≠ virtualPage addr := by
  have hvalid : Valid (loaderParams 0x20000).map := loaderMap_valid (Or.inr rfl)
  obtain ⟨booted, h, hinit, hrun⟩ := loader_returns (Or.inr rfl)
  refine ⟨hvalid, booted, h, hinit, hrun, fun hoff => ?_⟩
  obtain ⟨call, hcall, hpage⟩ := (exists_mapped_iff hvalid (fresh_atBoot _) hinit hrun).mpr
    (by decide : ∃ span ∈ poolSpans (poolStart (loaderParams 0x20000)) _, span.Holds 32)
  have haddr : (0x20000 : Word64) ∈
      identityMapped (loaderImage 0x20000) (loaderParams 0x20000) := by
    decide
  exact hoff call hcall _ haddr hpage

end RedX.PoolCollision
