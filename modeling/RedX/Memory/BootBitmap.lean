import RedX.Memory.PageOwnership
import RedX.Memory.ReadMap

/-!
# The bitmap after boot

Three properties that the state after `readMap` should have: the bitmap's own
pages are protected, an unmarked page is conventional memory, and a conventional
page is tracked and unmarked.  `readMap` has the first on no map; for the other
two the maps on which it has them are given exactly.
-/

namespace RedX.BootBitmap

open RedX.MachineWord
open RedX.PartialRun
open RedX.PageBitmap
open RedX.PageAllocation
open RedX.PageOwnership
open RedX.MemoryMap
open RedX.ReadMap

/-- The pages that overlap `[buffer, buffer + size)`. -/
def storagePages (bitmap : Bitmap) : Set ℕ :=
  {page | ∃ i < bitmap.size.toNat, page = pageIndex (bitmap.buffer + BitVec.ofNat 64 i)}

/-- The pages handed out by the `getPage` calls of runs of `getPage`, `lock` and
`locks`. -/
def grantable (s : PageAllocator) : Set ℕ :=
  {page | ∃ events s' found, (∀ event ∈ events, Marking event) ∧
    run step s events = some s' ∧ .got found ∈ events ∧ page = pageIndex found}

/-- The allocator keeps its own bitmap. -/
structure BitmapProtected (map : EfiMemoryMap) (s : PageAllocator) : Prop where
  conventional : storagePages s.pageBitmap ⊆ conventionalPages map
  marked : ∀ page ∈ storagePages s.pageBitmap,
    s.pageBitmap.get s.memory (BitVec.ofNat 64 page) = true
  kept : Disjoint (grantable s) (storagePages s.pageBitmap)

/-- What is unmarked, and what is handed out, is conventional memory. -/
structure BitmapSound (map : EfiMemoryMap) (s : PageAllocator) : Prop where
  unmarked : ∀ page < s.reach, ¬ s.Marked page → page ∈ conventionalPages map
  granted : grantable s ⊆ conventionalPages map

/-- No conventional page is lost, apart from those of the bitmap. -/
def BitmapComplete (map : EfiMemoryMap) (s : PageAllocator) : Prop :=
  ∀ page ∈ conventionalPages map, page ∉ storagePages s.pageBitmap →
    page < s.reach ∧ ¬ s.Marked page

variable {s s' : PageAllocator} {map : EfiMemoryMap} {page : ℕ}

theorem Booted.size_toNat (hbooted : Booted map s) :
    s.pageBitmap.size.toNat = bitmapBytes map := by
  have hsmall := hbooted.small
  rw [hbooted.pageBitmap, BitVec.toNat_ofNat]
  omega

theorem Booted.reach (hbooted : Booted map s) : s.reach = 8 * bitmapBytes map :=
  congrArg (8 * ·) (size_toNat hbooted)

theorem Booted.storagePages (hbooted : Booted map s) :
    storagePages s.pageBitmap = bitmapPages map := by
  unfold BootBitmap.storagePages bitmapPages
  rw [size_toNat hbooted, hbooted.pageBitmap]

theorem Booted.sized (hbooted : Booted map s) : Sized s.pageBitmap s := by
  have hsize := size_toNat hbooted
  have hle := bitmapBytes_le map
  refine ⟨rfl, ?_, ?_⟩
  · unfold Bitmap.WellSized
    omega
  · rw [hsize]
    exact Nat.succ_pos _

/-- A state of a fresh boot is one that `readMap` leaves behind. -/
theorem booted_of_readMap (hvalid : Valid map) (hfresh : Fresh s)
    (hread : readMap s map = some s') : Booted map s' := by
  by_cases hsmall : bitmapBytes map < 2 ^ 32
  · obtain ⟨s'', hread', hbooted⟩ := readMap_booted hvalid hfresh hsmall
    rw [hread, Option.some.injEq] at hread'
    exact hread' ▸ hbooted
  · rw [readMap_eq_none hvalid hfresh (by omega)] at hread
    simp at hread

theorem grantable_subset (hbooted : Booted map s) :
    grantable s ⊆ {page | page < s.reach ∧ ¬ s.Marked page} := by
  rintro page ⟨events, s', found, hmarking, hrun, hfound, rfl⟩
  exact got_unmarked (Booted.sized hbooted) hrun hmarking hfound

/-! ## Protection of the bitmap -/

/-- The first page of the bitmap is the first page of a conventional descriptor. -/
theorem pageIndex_bitmapBase (hconventional : ∃ desc ∈ map, desc.IsConventional) :
    ∃ desc ∈ map, desc.IsConventional ∧ pageIndex (bitmapBase map) = desc.firstPage := by
  cases hlargest : largestConventional map with
  | none =>
      obtain ⟨desc, hdesc, htype⟩ := hconventional
      rw [largestConventional, List.argmax_eq_none, List.filter_eq_nil_iff] at hlargest
      exact absurd htype (by simpa using hlargest desc hdesc)
  | some best =>
      obtain ⟨hbest, htype⟩ := largestConventional_mem hlargest
      exact ⟨best, hbest, htype, by rw [bitmapBase, hlargest]; rfl⟩

theorem bitmapBase_released (hvalid : Valid map)
    (hconventional : ∃ desc ∈ map, desc.IsConventional) :
    pageIndex (bitmapBase map) ∈ releasedPages map := by
  obtain ⟨desc, hdesc, htype, hfirst⟩ := pageIndex_bitmapBase hconventional
  have hpos := hvalid.nonempty desc hdesc
  refine ⟨desc, hdesc, htype, Or.inl ?_⟩
  unfold EfiMemoryDescriptor.Covers
  omega

/-- The release pass undoes the lock on the bitmap: on every map the bit of the
bitmap's first page is clear after `readMap`. -/
theorem readMap_not_protected (hvalid : Valid map)
    (hconventional : ∃ desc ∈ map, desc.IsConventional) (hfresh : Fresh s) :
    ¬ ∃ s', readMap s map = some s' ∧ BitmapProtected map s' := by
  rintro ⟨s', hread, hprotected⟩
  have hbooted := booted_of_readMap hvalid hfresh hread
  obtain ⟨-, hsize, hpos⟩ := Booted.sized hbooted
  have hbuffer : s'.pageBitmap.buffer = bitmapBase map := by rw [hbooted.pageBitmap]
  have hpage : pageIndex (bitmapBase map) ∈ storagePages s'.pageBitmap :=
    ⟨0, hpos, by rw [hbuffer]; exact congrArg pageIndex (BitVec.add_zero _).symm⟩
  have hbound := pageIndex_lt (bitmapBase map)
  have hindex : (BitVec.ofNat 64 (pageIndex (bitmapBase map))).toNat =
      pageIndex (bitmapBase map) := by
    rw [BitVec.toNat_ofNat]
    omega
  have hset := hprotected.marked _ hpage
  by_cases hreach : pageIndex (bitmapBase map) ≤ 8 * s'.pageBitmap.size.toNat
  · rw [get_eq_bitAt hsize (by rwa [hindex]), hindex] at hset
    rw [Booted.size_toNat hbooted] at hreach
    exact hbooted.unmarked _ hreach hset (bitmapBase_released hvalid hconventional)
  · rw [get_of_gt hsize (by omega)] at hset
    simp at hset

/-- Nine pages at `0x4000`. -/
theorem readMap_not_protected_nine :
    ¬ ∃ s', readMap (atBoot fun _ => 0) (oneSegment 0x4000 9) = some s' ∧
      BitmapProtected (oneSegment 0x4000 9) s' :=
  readMap_not_protected (oneSegment_valid (by decide) (by decide) (by decide))
    ⟨_, List.mem_singleton_self _, rfl⟩ (fresh_atBoot _)

/-- With two pages of conventional memory at `0x1000` the first `getPage` returns
`0x1000`, where the bitmap lies. -/
theorem bitmap_handed_out :
    Valid (oneSegment 0x1000 2) ∧
      ¬ ∃ s', readMap (atBoot fun _ => 0) (oneSegment 0x1000 2) = some s' ∧
        BitmapProtected (oneSegment 0x1000 2) s' := by
  refine ⟨oneSegment_valid (by decide) (by decide) (by decide), ?_⟩
  rintro ⟨s, hread, hprotected⟩
  have hrun : ((readMap (atBoot fun _ => 0) (oneSegment 0x1000 2)).bind fun s =>
      run step s [.got 0x1000]).isSome = true := by
    decide +kernel
  have hplace : (readMap (atBoot fun _ => 0) (oneSegment 0x1000 2)).map (fun s =>
      (s.pageBitmap.size, s.pageBitmap.buffer)) = some (1, 0x1000) := by
    decide +kernel
  rw [hread, Option.bind_some, Option.isSome_iff_exists] at hrun
  rw [hread, Option.map_some, Option.some.injEq, Prod.mk.injEq] at hplace
  obtain ⟨s', hrun⟩ := hrun
  refine Set.disjoint_left.mp hprotected.kept ⟨[.got 0x1000], s', 0x1000, ?_, hrun, ?_, rfl⟩ ?_
  · simp [Marking]
  · exact List.mem_singleton_self _
  · exact ⟨0, by rw [hplace.1]; decide, by rw [hplace.2]; decide⟩

/-! ## Soundness -/

/-- The maps on which `readMap` is sound: `bitmapInit` ends, and every tracked page
outside conventional memory is locked or reserved and not released through a
negative byte offset. -/
def SoundCondition (map : EfiMemoryMap) : Prop :=
  bitmapBytes map < 2 ^ 32 ∧
    ∀ page < 8 * bitmapBytes map, page ∉ conventionalPages map →
      (page ∈ lockedPages map ∨ page ∈ reservedPages map) ∧
        ∀ desc ∈ map, desc.IsConventional → page ∉ wrappedPages desc

theorem not_released_iff (hpage : page ∉ conventionalPages map) :
    page ∉ releasedPages map ↔
      ∀ desc ∈ map, desc.IsConventional → page ∉ wrappedPages desc := by
  constructor
  · intro hreleased desc hdesc htype hwrapped
    exact hreleased ⟨desc, hdesc, htype, Or.inr hwrapped⟩
  · rintro hwrapped ⟨desc, hdesc, htype, ⟨hcovers, -⟩ | hmem⟩
    · exact hpage ⟨desc, hdesc, htype, hcovers⟩
    · exact hwrapped desc hdesc htype hmem

theorem readMap_sound_iff (hvalid : Valid map) (hfresh : Fresh s) :
    (∃ s', readMap s map = some s' ∧ BitmapSound map s') ↔ SoundCondition map := by
  constructor
  · rintro ⟨s', hread, hsound⟩
    have hbooted := booted_of_readMap hvalid hfresh hread
    refine ⟨hbooted.small, fun page hpage hother => ?_⟩
    rw [← not_released_iff hother, ← hbooted.marked page hpage]
    by_contra hunmarked
    exact hother (hsound.unmarked page (by rwa [Booted.reach hbooted]) hunmarked)
  · rintro ⟨hsmall, hcovered⟩
    obtain ⟨s', hread, hbooted⟩ := readMap_booted hvalid hfresh hsmall
    have hunmarked : ∀ page < s'.reach, ¬ s'.Marked page → page ∈ conventionalPages map := by
      intro page hpage hclear
      rw [Booted.reach hbooted] at hpage
      by_contra hother
      apply hclear
      rw [hbooted.marked page hpage, not_released_iff hother]
      exact hcovered page hpage hother
    refine ⟨s', hread, hunmarked, fun page hpage => ?_⟩
    obtain ⟨hreach, hclear⟩ := grantable_subset hbooted hpage
    exact hunmarked page hreach hclear

/-- Seven pages at address 0 fill the bitmap but for its last bit, and that page is
reserved. -/
theorem readMap_sound_seven :
    ∃ s', readMap (atBoot fun _ => 0) (oneSegment 0 7) = some s' ∧
      BitmapSound (oneSegment 0 7) s' := by
  refine (readMap_sound_iff (oneSegment_valid (by decide) (by decide) (by decide))
    (fresh_atBoot _)).mpr ⟨by decide, fun page hpage hother => ⟨Or.inr ?_, ?_⟩⟩
  · have hbytes : bitmapBytes (oneSegment 0 7) = 1 := by decide
    have hpages : memoryPages (oneSegment 0 7) = 7 := by decide
    rw [hbytes] at hpage
    exact ⟨by omega, by omega⟩
  · rintro desc hdesc - ⟨k, -, hlong, -⟩
    rw [oneSegment, List.mem_singleton] at hdesc
    subst hdesc
    exact absurd hlong (by change ¬ _ < 7; omega)

/-- With nine pages at address 0 the bitmap has sixteen bits, and the bits of pages
10 to 15 are clear although no memory is there. -/
theorem tail_bits_clear :
    Valid (oneSegment 0 9) ∧
      ¬ ∃ s', readMap (atBoot fun _ => 0) (oneSegment 0 9) = some s' ∧
        BitmapSound (oneSegment 0 9) s' := by
  refine ⟨oneSegment_valid (by decide) (by decide) (by decide), ?_⟩
  rintro ⟨s, hread, hsound⟩
  have hpage : (readMap (atBoot fun _ => 0) (oneSegment 0 9)).map (fun s =>
      (decide (10 < s.reach), decide (s.Marked 10))) = some (true, false) := by
    decide +kernel
  rw [hread, Option.map_some, Option.some.injEq, Prod.mk.injEq, decide_eq_true_iff,
    decide_eq_false_iff_not] at hpage
  have hconventional := hsound.unmarked 10 hpage.1 hpage.2
  rw [mem_conventionalPages_oneSegment] at hconventional
  exact absurd hconventional (by decide)

/-! ## Completeness -/

/-- The maps on which `readMap` is complete: `bitmapInit` ends, and every
conventional page outside the bitmap lies below eight times the bitmap's size and,
if it is locked along with the bitmap, is released again. -/
def CompleteCondition (map : EfiMemoryMap) : Prop :=
  bitmapBytes map < 2 ^ 32 ∧
    ∀ page ∈ conventionalPages map, page ∉ bitmapPages map →
      page < 8 * bitmapBytes map ∧ (page ∈ lockedPages map → page ∈ releasedPages map)

/-- The reserve pass stops before the release pass does. -/
theorem released_of_reserved (hpage : page ∈ conventionalPages map)
    (hreserved : page ∈ reservedPages map) : page ∈ releasedPages map := by
  obtain ⟨desc, hdesc, htype, hcovers⟩ := hpage
  have hnear := hreserved.2
  exact ⟨desc, hdesc, htype, Or.inl ⟨hcovers, by omega⟩⟩

theorem Booted.unmarked_iff (hbooted : Booted map s) (hpage : page ∈ conventionalPages map)
    (hreach : page < 8 * bitmapBytes map) :
    ¬ s.Marked page ↔ (page ∈ lockedPages map → page ∈ releasedPages map) := by
  have hreserved : page ∈ reservedPages map → page ∈ releasedPages map :=
    released_of_reserved hpage
  rw [hbooted.marked page hreach]
  tauto

theorem readMap_complete_iff (hvalid : Valid map) (hfresh : Fresh s) :
    (∃ s', readMap s map = some s' ∧ BitmapComplete map s') ↔ CompleteCondition map := by
  constructor
  · rintro ⟨s', hread, hcomplete⟩
    have hbooted := booted_of_readMap hvalid hfresh hread
    refine ⟨hbooted.small, fun page hpage hother => ?_⟩
    rw [← Booted.storagePages hbooted] at hother
    obtain ⟨hreach, hclear⟩ := hcomplete page hpage hother
    rw [Booted.reach hbooted] at hreach
    exact ⟨hreach, (Booted.unmarked_iff hbooted hpage hreach).mp hclear⟩
  · rintro ⟨hsmall, hcovered⟩
    obtain ⟨s', hread, hbooted⟩ := readMap_booted hvalid hfresh hsmall
    refine ⟨s', hread, fun page hpage hother => ?_⟩
    rw [Booted.storagePages hbooted] at hother
    obtain ⟨hreach, hreleased⟩ := hcovered page hpage hother
    rw [Booted.reach hbooted]
    exact ⟨hreach, (Booted.unmarked_iff hbooted hpage hreach).mpr hreleased⟩

theorem readMap_complete_seven :
    ∃ s', readMap (atBoot fun _ => 0) (oneSegment 0 7) = some s' ∧
      BitmapComplete (oneSegment 0 7) s' := by
  refine (readMap_complete_iff (oneSegment_valid (by decide) (by decide) (by decide))
    (fresh_atBoot _)).mpr ⟨by decide, fun page hpage _ => ⟨?_, fun _ => ?_⟩⟩
  · have hbytes : bitmapBytes (oneSegment 0 7) = 1 := by decide
    rw [mem_conventionalPages_oneSegment] at hpage
    change 0 ≤ page ∧ page < 0 + 7 at hpage
    omega
  · obtain ⟨desc, hdesc, htype, hcovers⟩ := hpage
    have hfirst : desc.pages.toNat = 7 := by
      rw [oneSegment, List.mem_singleton] at hdesc
      rw [hdesc]
      rfl
    have hlast := hcovers.2
    exact ⟨desc, hdesc, htype, Or.inl ⟨hcovers, by omega⟩⟩

/-- Four pages at `0x64000`, above a hole: the bitmap has eight bits and none of
them stands for page 101. -/
theorem high_page_untracked :
    Valid (oneSegment 0x64000 4) ∧
      ¬ ∃ s', readMap (atBoot fun _ => 0) (oneSegment 0x64000 4) = some s' ∧
        BitmapComplete (oneSegment 0x64000 4) s' := by
  refine ⟨oneSegment_valid (by decide) (by decide) (by decide), ?_⟩
  rintro ⟨s, hread, hcomplete⟩
  have hplace : (readMap (atBoot fun _ => 0) (oneSegment 0x64000 4)).map (fun s =>
      (s.pageBitmap.size, s.pageBitmap.buffer)) = some (1, 0x64000) := by
    decide +kernel
  rw [hread, Option.map_some, Option.some.injEq, Prod.mk.injEq] at hplace
  have hreach : s.reach = 8 := by rw [PageAllocator.reach, hplace.1]; rfl
  have htracked := (hcomplete 101 (mem_conventionalPages_oneSegment.mpr (by decide)) ?_).1
  · omega
  · rintro ⟨i, hi, hpage⟩
    have hzero : i = 0 := by
      rw [hplace.1] at hi
      change i < 1 at hi
      omega
    rw [hplace.2, hzero] at hpage
    exact absurd hpage (by decide)

end RedX.BootBitmap
