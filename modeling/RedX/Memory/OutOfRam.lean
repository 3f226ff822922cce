import RedX.Memory.BootBitmap
import RedX.Memory.ScanOrder

/-!
# The "Out of RAM" panic

Both scans of `getPage` stop before index `size * 8 - 1`, so the last page that the
bitmap tracks is never looked at.  Where that page is conventional memory, the panic
comes with a free page left; on every other map it means that memory is exhausted.
-/

namespace RedX.OutOfRam

open RedX.MachineWord
open RedX.PartialRun
open RedX.PageAllocation
open RedX.MemoryMap
open RedX.ReadMap
open RedX.PagePass
open RedX.BootBitmap
open RedX.ScanOrder

/-- The calls of the allocator's users: no reserve and no release. -/
def Plain : Call → Prop
  | .getPage _ | .lock _ | .locks _ _ | .free _ | .frees _ _ => True
  | .reserve _ | .reserves _ _ | .release _ | .releases _ _ => False

/-- Every conventional page that the bitmap tracks is marked. -/
def Exhausted (map : EfiMemoryMap) (s : PageAllocator) : Prop :=
  ∀ page ∈ conventionalPages map, page < 8 * s.pageBitmap.size.toNat → s.Marked page

/-- From `booted` on `getPage` panics only when memory is exhausted. -/
def PanicsWhenExhausted (map : EfiMemoryMap) (booted : PageAllocator) : Prop :=
  ∀ calls s, (∀ call ∈ calls, Plain call) → run perform booted calls = some s →
    s.getPage = none → Exhausted map s

variable {s booted : PageAllocator} {map : EfiMemoryMap} {page last : ℕ}

/-- At the panic all pages but the last tracked one are marked. -/
theorem marked_of_panic (hsize : s.pageBitmap.WellSized) (hpos : 0 < s.pageBitmap.size.toNat)
    (hpanic : s.getPage = none) (hpage : page + 1 < s.reach) : s.Marked page := by
  by_contra hclear
  exact (getPage_eq_none_iff hsize hpos).mp hpanic page ⟨hpage, hclear⟩

theorem pageIndex_ofNat_mul (hpage : page < 2 ^ 52) :
    pageIndex (BitVec.ofNat 64 (4096 * page)) = page := by
  rw [pageIndex, BitVec.toNat_ofNat]
  omega

/-- The calls that leave the last tracked page as the only free one. -/
def allButLast (last : ℕ) : List Call :=
  [.locks 0 (BitVec.ofNat 64 last), .free (BitVec.ofNat 64 (4096 * last))]

theorem allButLast_panics (hsize : s.pageBitmap.WellSized) (hlast : last + 1 = s.reach) :
    ∃ s', run perform s (allButLast last) = some s' ∧ s'.pageBitmap = s.pageBitmap ∧
      s'.getPage = none ∧ ¬ s'.Marked last := by
  have hsmall : s.reach ≤ 2 ^ 52 := Nat.mul_le_mul_left 8 hsize
  have hcount : (BitVec.ofNat 64 last).toNat = last := by
    rw [BitVec.toNat_ofNat]
    omega
  let locked := s.locks 0 (BitVec.ofNat 64 last)
  let freed := locked.free (BitVec.ofNat 64 (4096 * last))
  have hlocked : locked.pageBitmap = s.pageBitmap := locks_pageBitmap _ _ _
  have hfreed : freed.pageBitmap = s.pageBitmap := (free_pageBitmap _ _).trans hlocked
  have hreach : locked.reach = s.reach := by
    rw [PageAllocator.reach, hlocked, PageAllocator.reach]
  have hmarked : ∀ page ≤ s.reach, freed.Marked page ↔ locked.Marked page ∧ page ≠ last := by
    intro page hpage
    rw [marked_free (hlocked ▸ hsize) (hreach ▸ hpage), pageIndex_ofNat_mul (by omega)]
  refine ⟨freed, rfl, hfreed, ?_, fun hlastMarked => ?_⟩
  · have hpos : 0 < s.pageBitmap.size.toNat := by
      unfold PageAllocator.reach at hlast
      omega
    rw [getPage_eq_none_iff (hfreed ▸ hsize) (hfreed ▸ hpos)]
    rintro page ⟨hpage, hclear⟩
    have hfreedReach : freed.reach = s.reach := by
      rw [PageAllocator.reach, hfreed, PageAllocator.reach]
    refine hclear ((hmarked page (by omega)).mpr ⟨?_, by omega⟩)
    refine (marked_locks hsize (by omega)).mpr (Or.inr ⟨page, by omega, ?_⟩)
    rw [pageIndex_wideStep 0 (by omega), show pageIndex 0 = 0 from rfl]
    omega
  · exact ((hmarked last (by omega)).mp hlastMarked).2 rfl

/-- The panic is right on exactly the maps whose last tracked page is no conventional
memory. -/
theorem panics_when_exhausted_iff (hvalid : Valid map) (hfresh : Fresh s)
    (hread : readMap s map = some booted) :
    PanicsWhenExhausted map booted ↔ 8 * bitmapBytes map - 1 ∉ conventionalPages map := by
  have hbooted := booted_of_readMap hvalid hfresh hread
  obtain ⟨-, hsize, hpos⟩ := Booted.sized hbooted
  have hreach := Booted.reach hbooted
  have hbytes := Booted.size_toNat hbooted
  constructor
  · intro hpanics hconventional
    obtain ⟨s', hrun, hbitmap, hnone, hclear⟩ :=
      allButLast_panics hsize (show 8 * bitmapBytes map - 1 + 1 = booted.reach by omega)
    refine hclear (hpanics _ s' ?_ hrun hnone _ hconventional ?_)
    · simp [allButLast, Plain]
    · rw [hbitmap]
      omega
  · intro hlast calls s' _ hrun hnone page hconventional hpage
    have hbitmap := run_pageBitmap hsize hrun
    refine marked_of_panic (hbitmap ▸ hsize) (hbitmap ▸ hpos) hnone ?_
    have hother : page ≠ 8 * bitmapBytes map - 1 := by
      rintro rfl
      exact hlast hconventional
    unfold PageAllocator.reach
    rw [hbitmap] at hpage ⊢
    omega

/-- Six pages from 0x1000 on and a bitmap of one byte: page 7 is no memory. -/
theorem panics_when_exhausted_six :
    ∃ booted, readMap (atBoot fun _ => 0) (oneSegment 0x1000 6) = some booted ∧
      PanicsWhenExhausted (oneSegment 0x1000 6) booted := by
  have hvalid : Valid (oneSegment 0x1000 6) :=
    oneSegment_valid (by decide) (by decide) (by decide)
  have hsmall : bitmapBytes (oneSegment 0x1000 6) < 2 ^ 32 := by decide
  obtain ⟨booted, hread, -⟩ := readMap_booted hvalid (fresh_atBoot fun _ => 0) hsmall
  refine ⟨booted, hread, (panics_when_exhausted_iff hvalid (fresh_atBoot _) hread).mpr ?_⟩
  have hbytes : bitmapBytes (oneSegment 0x1000 6) = 1 := by decide
  rw [hbytes, mem_conventionalPages_oneSegment]
  decide

/-- Seven pages from 0x1000 on: after six calls `getPage` panics while page 7 is free. -/
theorem panic_with_free_page :
    Valid (oneSegment 0x1000 7) ∧
      ∃ booted, readMap (atBoot fun _ => 0) (oneSegment 0x1000 7) = some booted ∧
        ¬ PanicsWhenExhausted (oneSegment 0x1000 7) booted := by
  have hvalid : Valid (oneSegment 0x1000 7) :=
    oneSegment_valid (by decide) (by decide) (by decide)
  let calls : List Call := [.getPage 0x1000, .getPage 0x2000, .getPage 0x3000, .getPage 0x4000,
    .getPage 0x5000, .getPage 0x6000]
  have hrun : ((readMap (atBoot fun _ => 0) (oneSegment 0x1000 7)).bind fun booted =>
      run perform booted calls).map (fun s =>
        s.getPage.isNone && decide (¬ s.Marked 7) && decide (s.pageBitmap.size = 1)) =
          some true := by
    decide +kernel
  rw [Option.map_eq_some_iff] at hrun
  obtain ⟨s, hs, hcheck⟩ := hrun
  rw [Option.bind_eq_some_iff] at hs
  obtain ⟨booted, hread, hs⟩ := hs
  simp only [Bool.and_eq_true, Option.isNone_iff_eq_none, decide_eq_true_eq] at hcheck
  obtain ⟨⟨hnone, hclear⟩, hbytes⟩ := hcheck
  refine ⟨hvalid, booted, hread, fun hpanics => hclear ?_⟩
  refine hpanics calls s (by simp [calls, Plain]) hs hnone 7 ?_ ?_
  · rw [mem_conventionalPages_oneSegment]
    decide
  · rw [hbytes]
    decide

end RedX.OutOfRam
