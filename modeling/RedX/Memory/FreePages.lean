import RedX.Memory.PagePass

/-!
# The free pages

`getPage` looks at the pages below `size * 8 - 1` only, from `pageI` on.  No call of the
allocator leaves an unmarked page behind `pageI`, so `getPage` grants the lowest free page
whenever there is one, and a call takes exactly that page from the free ones.
-/

namespace RedX.FreePages

open RedX.MachineWord
open RedX.ByteMemory
open RedX.BitArray
open RedX.PartialRun
open RedX.PageBitmap
open RedX.PageAllocation
open RedX.MemoryMap
open RedX.ReadMap
open RedX.PagePass

/-- The page is unmarked and `getPage` looks at it. -/
def Free (s : PageAllocator) (page : ℕ) : Prop := page + 1 < s.reach ∧ ¬ s.Marked page

instance (s : PageAllocator) (page : ℕ) : Decidable (Free s page) :=
  inferInstanceAs (Decidable (_ ∧ _))

/-- The free pages below `limit`. -/
def freePages (s : PageAllocator) (limit : ℕ) : Finset ℕ :=
  (Finset.range limit).filter fun page => Free s page

/-- No free page lies behind the scan position. -/
def ScanBehind (s : PageAllocator) : Prop := ∀ page, Free s page → s.pageI.toNat ≤ page

variable {s s' : PageAllocator} {page limit : ℕ} {found : Word64}

theorem mem_freePages : page ∈ freePages s limit ↔ page < limit ∧ Free s page := by
  rw [freePages, Finset.mem_filter, Finset.mem_range]

theorem Free.pos (hfree : Free s page) : 0 < s.pageBitmap.size.toNat := by
  have hreach : page + 1 < 8 * s.pageBitmap.size.toNat := hfree.1
  omega

/-- A page in reach is marked if the bitmap says so. -/
theorem marked_iff_get (hsize : s.pageBitmap.WellSized) {index : Word64}
    (hindex : index.toNat ≤ s.reach) :
    s.Marked index.toNat ↔ s.pageBitmap.get s.memory index = true := by
  rw [get_eq_bitAt hsize hindex]
  rfl

/-- A scan that finds nothing has passed marked pages only. -/
theorem scan_exhausted {fuel : ℕ} (hscan : s.scan fuel = (none, s'))
    (hfuel : s.scanEnd.toNat < s.pageI.toNat + fuel) (passed : Word64)
    (hfirst : s.pageI ≤ passed) (hlast : passed < s.scanEnd) :
    s.pageBitmap.get s.memory passed = true := by
  induction fuel generalizing s with
  | zero => bv_omega
  | succ fuel ih =>
      rw [PageAllocator.scan] at hscan
      split at hscan
      · rename_i hbound
        split at hscan
        · rename_i hmarked
          by_cases hsame : passed = s.pageI
          · rwa [hsame]
          · refine ih (s := { s with pageI := s.pageI + 1 }) hscan ?_ ?_ hlast
            · change s.scanEnd.toNat < (s.pageI + 1).toNat + fuel
              bv_omega
            · change s.pageI + 1 ≤ passed
              bv_omega
        · simp at hscan
      · bv_omega

/-- With a free page `getPage` does not panic. -/
theorem getPage_of_free (hsize : s.pageBitmap.WellSized) (hfree : Free s page) :
    ∃ found s', s.getPage = some (found, s') := by
  rw [PageAllocator.getPage]
  split
  · exact ⟨_, _, rfl⟩
  · rename_i hfirst
    obtain ⟨stop, rfl⟩ := scan_eq_none hfirst
    split
    · exact ⟨_, _, rfl⟩
    · rename_i hsecond
      exfalso
      have hscanEnd := toNat_scanEnd hsize hfree.pos
      have hreach := hfree.1
      have hbound : s.reach ≤ 2 ^ 52 := Nat.mul_le_mul_left 8 hsize
      have hpage : (BitVec.ofNat 64 page).toNat = page := by
        rw [BitVec.toNat_ofNat]
        omega
      have hget := scan_exhausted (s := { s with pageI := 0 }) hsecond
        (by change s.scanEnd.toNat < 0 + (s.scanEnd.toNat + 1); omega) (BitVec.ofNat 64 page)
        (BitVec.le_def.mpr (Nat.zero_le _))
        (by rw [BitVec.lt_def, hpage]; change page < s.scanEnd.toNat; omega)
      have hmarked := (marked_iff_get hsize (by rw [hpage]; omega)).mpr hget
      rw [hpage] at hmarked
      exact hfree.2 hmarked

/-- All pages before the one that `getPage` grants are marked. -/
theorem getPage_passed (hsize : s.pageBitmap.WellSized) (hpos : 0 < s.pageBitmap.size.toNat)
    (hbehind : ScanBehind s) (hget : s.getPage = some (found, s')) :
    (∀ page < pageIndex found, s.Marked page) ∧ s'.pageI.toNat = pageIndex found := by
  have hscanEnd := toNat_scanEnd hsize hpos
  have hbound : s.reach ≤ 2 ^ 52 := Nat.mul_le_mul_left 8 hsize
  have hpassed : ∀ (start index : Word64), index < s.scanEnd →
      (∀ passed : Word64, start ≤ passed → passed < index →
        s.pageBitmap.get s.memory passed = true) →
      ∀ page, start.toNat ≤ page → page < index.toNat → s.Marked page := by
    intro start index hindex hmarked page hfirst hlast
    rw [BitVec.lt_def] at hindex
    have hpage : (BitVec.ofNat 64 page).toNat = page := by
      rw [BitVec.toNat_ofNat]
      omega
    have hget := hmarked (BitVec.ofNat 64 page) (by rwa [BitVec.le_def, hpage])
      (by rwa [BitVec.lt_def, hpage])
    have hpageMarked := (marked_iff_get hsize (by rw [hpage]; omega)).mpr hget
    rwa [hpage] at hpageMarked
  obtain ⟨index, ⟨hindex, -, rfl, rfl⟩, start, hstart, hmarked⟩ := getPage_stops hget
  have hlt := BitVec.lt_def.mp hindex
  rw [lock_pageI, toNat_found (by omega)]
  refine ⟨fun page hpage => ?_, rfl⟩
  by_cases hfirst : start.toNat ≤ page
  · exact hpassed start index hindex hmarked page hfirst hpage
  · rcases hstart with rfl | rfl
    · by_contra hclear
      exact hfirst (hbehind page ⟨by omega, hclear⟩)
    · exact absurd (Nat.zero_le page) hfirst

theorem free_getPage_iff (hgranted : Granted s found s') :
    Free s' page ↔ Free s page ∧ page ≠ pageIndex found := by
  have hreach : s'.reach = s.reach := by
    rw [PageAllocator.reach, hgranted.pageBitmap, PageAllocator.reach]
  rw [Free, Free, hreach, and_assoc]
  apply and_congr_right
  intro hpage
  rw [hgranted.marked page (by omega), not_or]

/-- `getPage` takes the granted page from the free ones. -/
theorem freePages_getPage (hgranted : Granted s found s') :
    freePages s' limit = (freePages s limit).erase (pageIndex found) := by
  ext page
  rw [mem_freePages, Finset.mem_erase, mem_freePages, free_getPage_iff hgranted]
  tauto

/-- The granted page is no later than any free page. -/
theorem found_le_of_free (hsize : s.pageBitmap.WellSized) (hbehind : ScanBehind s)
    (hget : s.getPage = some (found, s')) (hfree : Free s page) : pageIndex found ≤ page := by
  by_contra hlt
  exact hfree.2 ((getPage_passed hsize hfree.pos hbehind hget).1 page (by omega))

/-- With a free page below `limit`, the granted page is one of these. -/
theorem found_mem_freePages (hsize : s.pageBitmap.WellSized) (hbehind : ScanBehind s)
    (hget : s.getPage = some (found, s')) (hfree : (freePages s limit).Nonempty) :
    pageIndex found ∈ freePages s limit := by
  obtain ⟨page, hpage⟩ := hfree
  obtain ⟨hlimit, hpage⟩ := mem_freePages.mp hpage
  have hgranted := getPage_granted hsize hpage.pos hget
  have hle := found_le_of_free hsize hbehind hget hpage
  have hreach := hpage.1
  exact mem_freePages.mpr ⟨by omega, by omega, hgranted.unmarked⟩

/-- The lowest free page is the one that `getPage` grants. -/
theorem getPage_lowest (hsize : s.pageBitmap.WellSized) (hbehind : ScanBehind s)
    (hfree : Free s page) (hlowest : ∀ before < page, s.Marked before) :
    ∃ s', s.getPage = some (BitVec.ofNat 64 (4096 * page), s') := by
  obtain ⟨found, s', hget⟩ := getPage_of_free hsize hfree
  have hgranted := getPage_granted hsize hfree.pos hget
  have hpassed := (getPage_passed hsize hfree.pos hbehind hget).1
  have hpage : pageIndex found = page := by
    rcases Nat.lt_trichotomy (pageIndex found) page with hbefore | hsame | hafter
    · exact absurd (hlowest _ hbefore) hgranted.unmarked
    · exact hsame
    · exact absurd (hpassed page hafter) hfree.2
  have hfound : found = BitVec.ofNat 64 (4096 * page) := by
    have haligned := hgranted.aligned
    have hlast := found.isLt
    apply BitVec.eq_of_toNat_eq
    unfold pageIndex at hpage
    rw [BitVec.toNat_ofNat]
    omega
  exact ⟨s', hfound ▸ hget⟩

/-! ## The scan position -/

theorem scanBehind_getPage (hsize : s.pageBitmap.WellSized) (hpos : 0 < s.pageBitmap.size.toNat)
    (hbehind : ScanBehind s) (hget : s.getPage = some (found, s')) : ScanBehind s' := by
  obtain ⟨hmarked, hpageI⟩ := getPage_passed hsize hpos hbehind hget
  intro page hfree
  have hfree' := ((free_getPage_iff (getPage_granted hsize hpos hget)).mp hfree).1
  rw [hpageI]
  by_contra hlt
  exact hfree'.2 (hmarked page (by omega))

theorem rescan_le (s : PageAllocator) (index : Word64) :
    (s.rescan index).toNat ≤ s.pageI.toNat ∧ (s.rescan index).toNat ≤ index.toNat := by
  rw [PageAllocator.rescan]
  split_ifs with hbefore
  · exact ⟨(BitVec.lt_def.mp hbefore).le, le_rfl⟩
  · exact ⟨le_rfl, Nat.le_of_not_lt fun hlt => hbefore (BitVec.lt_def.mpr hlt)⟩

theorem unmark_pageI_le (hsize : s.pageBitmap.WellSized) (counter : Counter) (addr : Word64) :
    (s.unmark counter addr).pageI.toNat ≤ s.pageI.toNat ∧
      (pageIndex addr ≤ s.reach → s.Marked (pageIndex addr) →
        (s.unmark counter addr).pageI.toNat ≤ pageIndex addr) := by
  have hrescan := rescan_le s (addr / 4096)
  rw [toNat_div_page] at hrescan
  rw [unmark_eq hsize]
  split_ifs with hset
  · have hpageI : ∀ t : PageAllocator, (t.discharge counter).pageI = t.pageI := by
      intro t
      cases counter <;> simp only [PageAllocator.discharge]
    rw [hpageI]
    exact ⟨hrescan.1, fun _ _ => hrescan.2⟩
  · exact ⟨le_rfl, fun hreach hmarked => absurd ⟨hreach, hmarked⟩ hset⟩

/-- Marking leaves the scan position where it is, and unmarking moves it back to the
page. -/
theorem scanBehind_touch (hsize : s.pageBitmap.WellSized) (hbehind : ScanBehind s) (sets : Bool)
    (counter : Counter) (addr : Word64) : ScanBehind (touch s sets counter addr) := by
  have hreach : (touch s sets counter addr).reach = s.reach := by
    rw [PageAllocator.reach, touch_pageBitmap, PageAllocator.reach]
  rintro page ⟨hpage, hclear⟩
  rw [hreach] at hpage
  cases sets with
  | true =>
      rw [show touch s true counter addr = s.mark counter addr from rfl] at hclear ⊢
      rw [marked_mark hsize counter (by omega), not_or] at hclear
      rw [mark_pageI]
      exact hbehind page ⟨hpage, hclear.1⟩
  | false =>
      rw [show touch s false counter addr = s.unmark counter addr from rfl] at hclear ⊢
      rw [marked_unmark hsize counter (by omega), not_and_or, not_not] at hclear
      obtain ⟨hearlier, hindex⟩ := unmark_pageI_le hsize counter addr
      by_cases hmarked : s.Marked page
      · obtain rfl := hclear.resolve_left (not_not_intro hmarked)
        exact hindex (by omega) hmarked
      · exact hearlier.trans (hbehind page ⟨hpage, hmarked⟩)

theorem scanBehind_run (hsize : s.pageBitmap.WellSized) (hbehind : ScanBehind s) (pass : Pass) :
    ScanBehind (pass.run s) := by
  obtain ⟨sets, counter, addrs⟩ := pass
  induction addrs generalizing s with
  | nil => exact hbehind
  | cons addr addrs ih =>
      refine ih (s := touch s sets counter addr) ?_
        (scanBehind_touch hsize hbehind sets counter addr)
      rwa [touch_pageBitmap]

/-- No call of the allocator leaves a free page behind the scan position. -/
theorem scanBehind_perform {call : Call} (hsize : s.pageBitmap.WellSized)
    (hpos : 0 < s.pageBitmap.size.toNat) (hbehind : ScanBehind s)
    (hperform : perform s call = some s') : ScanBehind s' := by
  by_cases hcall : ∃ found, call = .getPage found
  · obtain ⟨found, rfl⟩ := hcall
    exact scanBehind_getPage hsize hpos hbehind (perform_getPage hperform)
  · rw [perform_eq_some_run s fun found heq => hcall ⟨found, heq⟩] at hperform
    rw [← Option.some.inj hperform]
    exact scanBehind_run hsize hbehind call.pass

/-- From a scan position at 0, as at boot, no run of calls leaves a free page behind. -/
theorem scanBehind_of_run {calls : List Call} (hsize : s.pageBitmap.WellSized)
    (hpos : 0 < s.pageBitmap.size.toNat) (hstart : s.pageI = 0)
    (hrun : run perform s calls = some s') : ScanBehind s' := by
  have hkept : s'.pageBitmap = s.pageBitmap ∧ ScanBehind s' := by
    refine run_invariant (fun state => state.pageBitmap = s.pageBitmap ∧ ScanBehind state)
      ⟨rfl, fun page _ => by rw [hstart]; exact Nat.zero_le page⟩ ?_ hrun
    rintro state call - next ⟨hbitmap, hbehind⟩ hperform
    have hwell : state.pageBitmap.WellSized := hbitmap ▸ hsize
    exact ⟨(perform_flips hwell hperform).pageBitmap.trans hbitmap,
      scanBehind_perform hwell (hbitmap ▸ hpos) hbehind hperform⟩
  exact hkept.2

/-! ## The bytes of the bitmap -/

/-- The first `count` bytes from the buffer of a bitmap on. -/
def bitmapStore (bitmap : Bitmap) (count : ℕ) : Set Word64 :=
  {address | offset bitmap.buffer address < count}

theorem set_agreeOutside {bitmap : Bitmap} {index : Word64} {count : ℕ} (hsize : bitmap.WellSized)
    (hindex : index.toNat < 8 * count) (memory : Memory) (value : Bool) :
    AgreeOutside (bitmapStore bitmap count) memory (bitmap.set memory index value).2 := by
  have hbyte : index.toNat / 8 < 2 ^ 64 := by
    have := index.isLt
    omega
  have hstore : ∀ (before : Memory) (byte : Byte), AgreeOutside (bitmapStore bitmap count) before
      (store8 before (bitmap.buffer + BitVec.ofNat 64 (index.toNat / 8)) byte) := by
    intro before byte address houtside
    rw [store8_apply, if_neg]
    rintro rfl
    apply houtside
    change offset _ _ < count
    rw [offset_add_ofNat _ hbyte]
    omega
  by_cases hreach : index.toNat ≤ 8 * bitmap.size.toNat
  · rw [set_of_le hsize hreach]
    cases value with
    | true => exact (hstore _ _).trans (hstore _ _)
    | false => exact hstore _ _
  · rw [set_of_gt hsize (by omega)]
    exact AgreeOutside.refl _ _

/-- Marking one page writes its byte of the bitmap only. -/
theorem mark_agreeOutside {count : ℕ} (hsize : s.pageBitmap.WellSized) (counter : Counter)
    {addr : Word64} (hindex : pageIndex addr ≤ s.reach → pageIndex addr < 8 * count) :
    AgreeOutside (bitmapStore s.pageBitmap count) s.memory (s.mark counter addr).memory := by
  rw [mark_memory hsize]
  split_ifs with hset
  · exact set_agreeOutside hsize (by rw [toNat_div_page]; exact hindex hset.1) _ _
  · exact AgreeOutside.refl _ _

theorem getPage_agreeOutside (hsize : s.pageBitmap.WellSized) (hpos : 0 < s.pageBitmap.size.toNat)
    (hget : s.getPage = some (found, s')) :
    AgreeOutside (bitmapStore s.pageBitmap s.pageBitmap.size.toNat) s.memory s'.memory := by
  have hgranted := getPage_granted hsize hpos hget
  obtain ⟨index, -, -, rfl, rfl⟩ := getPage_eq_some hget
  exact mark_agreeOutside (s := { s with pageI := index }) hsize .used fun _ => hgranted.tracked

/-- Writes outside of the bitmap leave the marked pages alone. -/
theorem marked_of_agreeOutside {touched : Set Word64} {memory : Memory}
    (hsize : s.pageBitmap.WellSized) (hagree : AgreeOutside touched s.memory memory)
    (hapart : Disjoint touched (bitmapStore s.pageBitmap s.pageBitmap.size.toNat))
    (hpage : page < s.reach) :
    ({ s with memory := memory } : PageAllocator).Marked page ↔ s.Marked page := by
  have hsmall : s.pageBitmap.size.toNat ≤ 2 ^ 49 := hsize
  have hbyte : page < 8 * s.pageBitmap.size.toNat := hpage
  have hsame : memory (s.pageBitmap.buffer + BitVec.ofNat 64 (page / 8)) =
      s.memory (s.pageBitmap.buffer + BitVec.ofNat 64 (page / 8)) := by
    apply hagree
    intro htouched
    refine Set.disjoint_left.mp hapart htouched ?_
    change offset _ _ < _
    rw [offset_add_ofNat _ (by omega)]
    omega
  rw [PageAllocator.Marked, PageAllocator.Marked, bitAt, bitAt]
  change (memory (s.pageBitmap.buffer + _)).getMsbD _ = true ↔ _
  rw [hsame]

theorem free_congr (hbitmap : s'.pageBitmap = s.pageBitmap)
    (hmarked : ∀ page < s.reach, s'.Marked page ↔ s.Marked page) : Free s' page ↔ Free s page := by
  have hreach : s'.reach = s.reach := by
    rw [PageAllocator.reach, hbitmap, PageAllocator.reach]
  rw [Free, Free, hreach]
  apply and_congr_right
  intro hpage
  rw [hmarked page (by omega)]

theorem freePages_congr (hbitmap : s'.pageBitmap = s.pageBitmap)
    (hmarked : ∀ page < s.reach, s'.Marked page ↔ s.Marked page) :
    freePages s' limit = freePages s limit := by
  ext page
  rw [mem_freePages, mem_freePages, free_congr hbitmap hmarked]

theorem scanBehind_congr (hbitmap : s'.pageBitmap = s.pageBitmap) (hpageI : s'.pageI = s.pageI)
    (hmarked : ∀ page < s.reach, s'.Marked page ↔ s.Marked page) (hbehind : ScanBehind s) :
    ScanBehind s' := by
  intro page hfree
  rw [hpageI]
  exact hbehind page ((free_congr hbitmap hmarked).mp hfree)

/-- A pass writes the bitmap and at most one byte after it. -/
theorem touch_agreeOutside (hsize : s.pageBitmap.WellSized) (sets : Bool) (counter : Counter)
    (addr : Word64) :
    AgreeOutside (bitmapStore s.pageBitmap (s.pageBitmap.size.toNat + 1)) s.memory
      (touch s sets counter addr).memory := by
  have hindex : pageIndex addr ≤ s.reach → pageIndex addr < 8 * (s.pageBitmap.size.toNat + 1) := by
    unfold PageAllocator.reach
    omega
  cases sets with
  | true => exact mark_agreeOutside hsize counter hindex
  | false =>
      change AgreeOutside _ s.memory (s.unmark counter addr).memory
      rw [unmark_memory hsize]
      split_ifs with hset
      · exact set_agreeOutside hsize (by rw [toNat_div_page]; exact hindex hset.1) _ _
      · exact AgreeOutside.refl _ _

theorem run_agreeOutside (hsize : s.pageBitmap.WellSized) (pass : Pass) :
    AgreeOutside (bitmapStore s.pageBitmap (s.pageBitmap.size.toNat + 1)) s.memory
      (pass.run s).memory := by
  obtain ⟨sets, counter, addrs⟩ := pass
  induction addrs generalizing s with
  | nil => exact AgreeOutside.refl _ _
  | cons addr addrs ih =>
      have hbitmap := touch_pageBitmap s sets counter addr
      have hrest := ih (s := touch s sets counter addr) (by rwa [hbitmap])
      rw [hbitmap] at hrest
      exact (touch_agreeOutside hsize sets counter addr).trans hrest

/-- Every call of the allocator does. -/
theorem perform_agreeOutside {call : Call} (hsize : s.pageBitmap.WellSized)
    (hperform : perform s call = some s') :
    AgreeOutside (bitmapStore s.pageBitmap (s.pageBitmap.size.toNat + 1)) s.memory s'.memory := by
  obtain ⟨index, rfl⟩ := perform_eq_run hperform
  exact run_agreeOutside (s := { s with pageI := index }) hsize call.pass

theorem calls_agreeOutside {calls : List Call} (hsize : s.pageBitmap.WellSized)
    (hrun : run perform s calls = some s') :
    AgreeOutside (bitmapStore s.pageBitmap (s.pageBitmap.size.toNat + 1)) s.memory s'.memory := by
  have hkept : s'.pageBitmap = s.pageBitmap ∧
      AgreeOutside (bitmapStore s.pageBitmap (s.pageBitmap.size.toNat + 1)) s.memory s'.memory := by
    refine run_invariant (fun state => state.pageBitmap = s.pageBitmap ∧ AgreeOutside
      (bitmapStore s.pageBitmap (s.pageBitmap.size.toNat + 1)) s.memory state.memory)
      ⟨rfl, AgreeOutside.refl _ _⟩ ?_ hrun
    rintro state call - next ⟨hbitmap, hagree⟩ hperform
    have hwell : state.pageBitmap.WellSized := hbitmap ▸ hsize
    have hstep := perform_agreeOutside hwell hperform
    rw [hbitmap] at hstep
    exact ⟨(perform_flips hwell hperform).pageBitmap.trans hbitmap, hagree.trans hstep⟩
  exact hkept.2

/-- `readMap` writes the bitmap and at most one byte after it. -/
theorem readMap_agreeOutside {map : EfiMemoryMap} (hvalid : Valid map) (hfresh : Fresh s)
    (hread : readMap s map = some s') :
    AgreeOutside (bitmapStore s'.pageBitmap (bitmapBytes map + 1)) s.memory s'.memory := by
  rw [readMap_eq_run hfresh.1, Option.bind_eq_some_iff] at hread
  obtain ⟨cleared, hstage, hrun⟩ := hread
  have hcleared := bitmapStage_cleared hvalid hfresh.2 hstage
  have hbytes := hcleared.size_toNat
  have hwell : cleared.pageBitmap.WellSized := hbytes.trans_le (bitmapBytes_le map)
  rw [run_pageBitmap hwell hrun, ← hbytes]
  refine AgreeOutside.trans ?_ (calls_agreeOutside hwell hrun)
  rw [hcleared.memory, hbytes]
  apply agreeOutside_store
  intro address hinside
  change offset cleared.pageBitmap.buffer address < _
  rw [hcleared.pageBitmap]
  exact Nat.lt_succ_of_lt hinside

end RedX.FreePages
