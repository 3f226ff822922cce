import RedX.Memory.FreePages

/-!
# The order of `getPage`

The scan position is a hint: in every state that the calls of the allocator reach
after `readMap`, all pages below it are marked, so `getPage` answers as a scan from
page 0 would.  It panics exactly when no page that it looks at is unmarked.
-/

namespace RedX.ScanOrder

open RedX.MachineWord
open RedX.ByteMemory
open RedX.PartialRun
open RedX.PageBitmap
open RedX.PageAllocation
open RedX.MemoryMap
open RedX.ReadMap
open RedX.PagePass
open RedX.FreePages

variable {s s' : PageAllocator} {page : ℕ} {found : Word64}

/-! ## When `getPage` panics -/

theorem free_of_getPage (hsize : s.pageBitmap.WellSized) (hpos : 0 < s.pageBitmap.size.toNat)
    (hget : s.getPage = some (found, s')) : Free s (pageIndex found) := by
  have hunmarked := (getPage_granted hsize hpos hget).unmarked
  have hscanEnd := toNat_scanEnd hsize hpos
  have hbound : s.reach ≤ 2 ^ 52 := Nat.mul_le_mul_left 8 hsize
  obtain ⟨index, hindex, -, rfl, -⟩ := getPage_eq_some hget
  rw [BitVec.lt_def] at hindex
  rw [toNat_found (by omega)] at hunmarked ⊢
  exact ⟨by omega, hunmarked⟩

theorem getPage_eq_none_iff (hsize : s.pageBitmap.WellSized)
    (hpos : 0 < s.pageBitmap.size.toNat) : s.getPage = none ↔ ∀ page, ¬ Free s page := by
  constructor
  · intro hnone page hfree
    obtain ⟨found, s', hget⟩ := getPage_of_free hsize hfree
    rw [hnone] at hget
    cases hget
  · intro hall
    cases hget : s.getPage with
    | none => rfl
    | some result => exact absurd (free_of_getPage hsize hpos hget) (hall _)

/-! ## The scan position -/

theorem scanBehind_zero (s : PageAllocator) : ScanBehind { s with pageI := 0 } :=
  fun page _ => Nat.zero_le page

/-- `getPage` answers as a scan from page 0 does. -/
theorem getPage_fromZero (hsize : s.pageBitmap.WellSized) (hpos : 0 < s.pageBitmap.size.toNat)
    (hbehind : ScanBehind s) : ({ s with pageI := 0 } : PageAllocator).getPage = s.getPage := by
  cases hzero : ({ s with pageI := 0 } : PageAllocator).getPage with
  | none =>
      rw [getPage_eq_none_iff (s := { s with pageI := 0 }) hsize hpos] at hzero
      exact ((getPage_eq_none_iff hsize hpos).mpr hzero).symm
  | some result =>
      obtain ⟨first, t⟩ := result
      have hfree : Free s (pageIndex first) :=
        free_of_getPage (s := { s with pageI := 0 }) hsize hpos hzero
      obtain ⟨found, s', hget⟩ := getPage_of_free hsize hfree
      have hbound : s.reach ≤ 2 ^ 52 := Nat.mul_le_mul_left 8 hsize
      have hscanEnd := toNat_scanEnd hsize hpos
      have hfound : pageIndex found = pageIndex first := by
        apply le_antisymm
        · exact found_le_of_free hsize hbehind hget hfree
        · have hgranted : Free s (pageIndex found) := free_of_getPage hsize hpos hget
          exact found_le_of_free (s := { s with pageI := 0 }) hsize (scanBehind_zero s) hzero
            hgranted
      obtain ⟨index, hindex, -, rfl, rfl⟩ := getPage_eq_some hget
      obtain ⟨start, hstart, -, rfl, rfl⟩ := getPage_eq_some hzero
      rw [BitVec.lt_def] at hindex hstart
      change start.toNat < s.scanEnd.toNat at hstart
      rw [toNat_found (by omega), toNat_found (by omega)] at hfound
      obtain rfl := BitVec.eq_of_toNat_eq hfound
      exact hget.symm

/-- The scan position is one of the pages that the bitmap tracks. -/
def InScan (s : PageAllocator) : Prop := s.pageI.toNat < s.reach

theorem touch_pageI_le (hsize : s.pageBitmap.WellSized) (sets : Bool) (counter : Counter)
    (addr : Word64) : (touch s sets counter addr).pageI.toNat ≤ s.pageI.toNat := by
  cases sets with
  | true => exact (congrArg BitVec.toNat (mark_pageI s counter addr)).le
  | false => exact (unmark_pageI_le hsize counter addr).1

theorem run_pageI_le (hsize : s.pageBitmap.WellSized) (pass : Pass) :
    (pass.run s).pageI.toNat ≤ s.pageI.toNat := by
  obtain ⟨sets, counter, addrs⟩ := pass
  induction addrs generalizing s with
  | nil => exact le_rfl
  | cons addr addrs ih =>
      have hrest := ih (s := touch s sets counter addr) (by rwa [touch_pageBitmap])
      exact hrest.trans (touch_pageI_le hsize sets counter addr)

theorem inScan_perform {call : Call} (hsize : s.pageBitmap.WellSized)
    (hpos : 0 < s.pageBitmap.size.toNat) (hscan : InScan s)
    (hperform : perform s call = some s') : InScan s' := by
  have hreach := (perform_flips hsize hperform).reach
  unfold InScan at hscan ⊢
  rw [hreach]
  by_cases hcall : ∃ found, call = .getPage found
  · obtain ⟨found, rfl⟩ := hcall
    have hget := perform_getPage hperform
    have hgranted := getPage_granted hsize hpos hget
    obtain ⟨index, hindex, -, rfl, rfl⟩ := getPage_eq_some hget
    have hscanEnd := toNat_scanEnd hsize hpos
    rw [BitVec.lt_def] at hindex
    rw [lock_pageI]
    change index.toNat < s.reach
    omega
  · rw [perform_eq_some_run s fun found heq => hcall ⟨found, heq⟩] at hperform
    rw [← Option.some.inj hperform]
    exact (run_pageI_le hsize call.pass).trans_lt hscan

theorem inScan_run {calls : List Call} (hsize : s.pageBitmap.WellSized)
    (hpos : 0 < s.pageBitmap.size.toNat) (hscan : InScan s)
    (hrun : run perform s calls = some s') : InScan s' := by
  have hkept : s'.pageBitmap = s.pageBitmap ∧ InScan s' := by
    refine run_invariant (fun state => state.pageBitmap = s.pageBitmap ∧ InScan state)
      ⟨rfl, hscan⟩ ?_ hrun
    rintro state call - next ⟨hbitmap, hinside⟩ hperform
    have hwell : state.pageBitmap.WellSized := hbitmap ▸ hsize
    exact ⟨(perform_flips hwell hperform).pageBitmap.trans hbitmap,
      inScan_perform hwell (hbitmap ▸ hpos) hinside hperform⟩
  exact hkept.2

theorem marked_behind (hbehind : ScanBehind s) (hscan : InScan s) (hpage : page < s.pageI.toNat) :
    s.Marked page := by
  by_contra hclear
  unfold InScan at hscan
  exact absurd (hbehind page ⟨by omega, hclear⟩) (by omega)

/-! ## After `readMap` -/

theorem getMemorySize_pageI (s : PageAllocator) (map : EfiMemoryMap) :
    (getMemorySize s map).2.pageI = s.pageI := by
  rw [getMemorySize]
  split_ifs <;> rfl

/-- `bitmapInit` of `readMap` leaves a bitmap of at least one byte. -/
theorem bitmapStage_sized {map : EfiMemoryMap} (hstage : bitmapStage s map = some s') :
    s'.pageBitmap.WellSized ∧ 0 < s'.pageBitmap.size.toNat ∧ s'.pageI = s.pageI := by
  let started : PageAllocator := { s with initialized := true }
  let memSize := (getMemorySize started map).1
  have hinit : bitmapInit { (getMemorySize started map).2 with freeMem := memSize }
      (memSize / 4096 / 8 + 1) (largestSegment map).1 = some s' := hstage
  obtain ⟨-, rfl⟩ := bitmapInit_eq_some hinit
  have hbytes : (memSize / 4096 / 8 + 1).toNat = memSize.toNat / 4096 / 8 + 1 := by
    have := memSize.isLt
    rw [BitVec.toNat_add, BitVec.toNat_udiv, BitVec.toNat_udiv]
    change (memSize.toNat / 4096 / 8 + 1) % 2 ^ 64 = _
    omega
  refine ⟨?_, ?_, getMemorySize_pageI started map⟩
  · have := memSize.isLt
    rw [Bitmap.WellSized, hbytes]
    omega
  · rw [hbytes]
    omega

/-- What `readMap` makes of the zero-initialised globals, on any map: a run of calls on a
bitmap of at least one byte, from scan position 0. -/
theorem readMap_atBoot {memory : Memory} {map : EfiMemoryMap}
    (hread : readMap (atBoot memory) map = some s) :
    ∃ cleared calls, cleared.pageBitmap.WellSized ∧ 0 < cleared.pageBitmap.size.toNat ∧
      cleared.pageI = 0 ∧ run perform cleared calls = some s := by
  rw [readMap_eq_run rfl, Option.bind_eq_some_iff] at hread
  obtain ⟨cleared, hstage, hrun⟩ := hread
  obtain ⟨hsize, hpos, hpageI⟩ := bitmapStage_sized hstage
  exact ⟨cleared, _, hsize, hpos, hpageI, hrun⟩

/-- A call of `getPage` that takes the page `least`. -/
structure Takes (s : PageAllocator) (least : ℕ) (s' : PageAllocator) : Prop where
  found : ∃ found, s.getPage = some (found, s') ∧ found.toNat = 4096 * least
  unmarked : ¬ s.Marked least
  lowest : ∀ before < least, s.Marked before
  marked : ∀ page < s.reach, s'.Marked page ↔ s.Marked page ∨ page = least
  kept : AgreeOutside (bitmapStore s.pageBitmap s.pageBitmap.size.toNat) s.memory s'.memory

theorem takes_of_free (hsize : s.pageBitmap.WellSized) (hbehind : ScanBehind s)
    (hfree : Free s page) : ∃ least ≤ page, ∃ s', Takes s least s' := by
  obtain ⟨found, s', hget⟩ := getPage_of_free hsize hfree
  have hgranted := getPage_granted hsize hfree.pos hget
  refine ⟨pageIndex found, found_le_of_free hsize hbehind hget hfree, s', ⟨found, hget, ?_⟩,
    hgranted.unmarked, (getPage_passed hsize hfree.pos hbehind hget).1,
    fun page hpage => hgranted.marked page hpage.le, getPage_agreeOutside hsize hfree.pos hget⟩
  have haligned := hgranted.aligned
  unfold pageIndex
  omega

/-- `getPage` is lowest-first. -/
structure LowestFirst (s : PageAllocator) : Prop where
  behind : ∀ page < s.pageI.toNat, s.Marked page
  fromZero : ({ s with pageI := 0 } : PageAllocator).getPage = s.getPage
  lowest : ∀ page < 8 * s.pageBitmap.size.toNat - 1, ¬ s.Marked page →
    ∃ least ≤ page, ∃ s', Takes s least s'

/-- `getPage` is lowest-first in every state that calls of the allocator reach after
`readMap`. -/
theorem getPage_lowestFirst {memory : Memory} {map : EfiMemoryMap} {booted : PageAllocator}
    {calls : List Call} (hread : readMap (atBoot memory) map = some booted)
    (hrun : run perform booted calls = some s) : LowestFirst s := by
  obtain ⟨cleared, boot, hsize, hpos, hstart, hboot⟩ := readMap_atBoot hread
  have hall : run perform cleared (boot ++ calls) = some s := by
    rw [run_append, hboot]
    exact hrun
  have hbehind := scanBehind_of_run hsize hpos hstart hall
  have hscan : InScan s := by
    refine inScan_run hsize hpos ?_ hall
    rw [InScan, hstart]
    exact Nat.mul_pos (by omega) hpos
  have hbitmap := run_pageBitmap hsize hall
  rw [← hbitmap] at hsize hpos
  refine ⟨fun page hpage => marked_behind hbehind hscan hpage,
    getPage_fromZero hsize hpos hbehind, fun page hpage hclear => ?_⟩
  refine takes_of_free hsize hbehind ⟨?_, hclear⟩
  unfold PageAllocator.reach
  omega

/-- Pages 1 and 2 are granted and page 1 is freed: it is the next one again. -/
theorem getPage_lowestFirst_freed :
    ∃ booted s, readMap (atBoot fun _ => 0) (oneSegment 0x1000 7) = some booted ∧
      run perform booted [.getPage 0x1000, .getPage 0x2000, .free 0x1000] = some s ∧
      LowestFirst s := by
  have hrun : ((readMap (atBoot fun _ => 0) (oneSegment 0x1000 7)).bind fun booted =>
      run perform booted [.getPage 0x1000, .getPage 0x2000, .free 0x1000]).isSome = true := by
    decide +kernel
  obtain ⟨s, hs⟩ := Option.isSome_iff_exists.mp hrun
  rw [Option.bind_eq_some_iff] at hs
  obtain ⟨booted, hread, hs⟩ := hs
  exact ⟨booted, s, hread, hs, getPage_lowestFirst hread hs⟩

end RedX.ScanOrder
