import Mathlib.Data.List.GetD
import RedX.Memory.MemoryMap

/-!
# `pageAllocator::readMap`

The allocator's start-up: find the largest conventional segment, place the
bitmap there, lock the bitmap's pages, reserve all of memory and release every
conventional segment.  `readMap_booted` gives the marked pages at the end as one
set expression over the map.
-/

namespace RedX.ReadMap

open RedX.MachineWord
open RedX.ByteMemory
open RedX.BitArray
open RedX.CountedLoop
open RedX.PageBitmap
open RedX.PageAllocation
open RedX.MemoryMap

/-- `getMemorySize`, whose total is a static that is computed once. -/
def getMemorySize (s : PageAllocator) (map : EfiMemoryMap) : Word64 × PageAllocator :=
  if s.memSizeBytes > 0 then (s.memSizeBytes, s)
  else
    let total := intFor (BitVec.ofNat 64 map.length)
      (fun i total => total + (map.getD i.toNat default).pages * 4096) s.memSizeBytes
    (total, { s with memSizeBytes := total })

/-- The first loop of `readMap`: start and size of the largest segment so far. -/
def largestSegment (map : EfiMemoryMap) : Word64 × Word64 :=
  map.foldl (fun largest desc =>
    if desc.type = 7 then
      if desc.pages * 4096 > largest.2 then (desc.physAddr, desc.pages * 4096) else largest
    else largest) (0, 0)

/-- The loop of `bitmapInit`.  Its counter is a `uint32_t` and its bound a
`size_t`, so it ends within `2^32` passes or not at all. -/
def clearLoop (size buffer : Word64) : ℕ → Word32 → Memory → Option Memory
  | 0, _, _ => none
  | fuel + 1, i, memory =>
      if i.setWidth 64 < size then
        clearLoop size buffer fuel (i + 1) (store8 memory (buffer + i.setWidth 64) 0)
      else some memory

/-- `pageAllocator::bitmapInit`; `none` where its loop never ends. -/
def bitmapInit (s : PageAllocator) (size bufferAddr : Word64) : Option PageAllocator :=
  (clearLoop size bufferAddr (2 ^ 32) 0 s.memory).map fun memory =>
    { s with pageBitmap := ⟨size, bufferAddr⟩, memory := memory }

/-- The last loop of `readMap`. -/
def releaseConventional (s : PageAllocator) (map : EfiMemoryMap) : PageAllocator :=
  map.foldl (fun s desc =>
    if desc.type = 7 then s.releases desc.physAddr desc.pages else s) s

/-- `pageAllocator::readMap` -/
def readMap (s : PageAllocator) (map : EfiMemoryMap) : Option PageAllocator :=
  if s.initialized then some s
  else
    let s := { s with initialized := true }
    let largestSeg := (largestSegment map).1
    let (memSize, s) := getMemorySize s map
    let s := { s with freeMem := memSize }
    let bitmapSize := memSize / 4096 / 8 + 1
    (bitmapInit s bitmapSize largestSeg).map fun s =>
      let s := s.locks s.pageBitmap.buffer (s.pageBitmap.size / 4096 + 1)
      let s := s.reserves 0 (memSize / 4096 + 1)
      releaseConventional s map

/-- The allocator as the kernel starts: `readMap` has not run yet. -/
def Fresh (s : PageAllocator) : Prop := s.initialized = false ∧ s.memSizeBytes = 0

/-- The zero-initialised globals. -/
def atBoot (memory : Memory) : PageAllocator where
  memory := memory
  pageBitmap := ⟨0, 0⟩
  freeMem := 0
  reservedMem := 0
  usedMem := 0
  initialized := false
  memSizeBytes := 0
  pageI := 0

theorem fresh_atBoot (memory : Memory) : Fresh (atBoot memory) := ⟨rfl, rfl⟩

variable {s s' : PageAllocator} {map : EfiMemoryMap} {page : ℕ}

/-! ## The sum of the descriptor sizes -/

private theorem forLoop_getD (map : EfiMemoryMap) (count : ℕ) (hcount : count ≤ map.length)
    (hsmall : count ≤ 2 ^ 32) :
    (forLoop count (fun i (total : Word64) =>
        total + (map.getD (BitVec.ofNat 32 i).toNat default).pages * 4096) 0).toNat =
      ((map.take count).map fun desc => desc.pages.toNat).sum * 4096 % 2 ^ 64 := by
  induction count with
  | zero => simp
  | succ count ih =>
      have hindex : (BitVec.ofNat 32 count).toNat = count := by
        rw [BitVec.toNat_ofNat]
        omega
      rw [forLoop_succ, BitVec.toNat_add, ih (by omega) (by omega), hindex, BitVec.toNat_mul,
        List.take_succ_eq_append_getElem (by omega), List.map_append, List.sum_append,
        List.getD_eq_getElem _ _ (by omega)]
      simp only [List.map_cons, List.map_nil, List.sum_cons, List.sum_nil]
      change (_ + map[count].pages.toNat * 4096 % 2 ^ 64) % 2 ^ 64 = _
      omega

theorem getMemorySize_fresh (hfresh : s.memSizeBytes = 0) (hlength : map.length < 2 ^ 63) :
    (getMemorySize s map).1.toNat = memoryPages map * 4096 := by
  rw [getMemorySize, if_neg (by simp [hfresh])]
  have hlengthValue : (BitVec.ofNat 64 map.length).toNat = map.length := by
    rw [BitVec.toNat_ofNat]
    omega
  have hpasses : intPasses (BitVec.ofNat 64 map.length) = min map.length (2 ^ 31) := by
    unfold intPasses
    rw [hlengthValue]
    split_ifs <;> omega
  have htake : map.take (min map.length (2 ^ 31)) = map.take (2 ^ 31) := by
    rw [← List.take_take, List.take_of_length_le (l := map.take (2 ^ 31))]
    rw [List.length_take]
    omega
  rw [hfresh, intFor_eq_forLoop, hpasses, forLoop_getD _ _ (by omega) (by omega), htake,
    memoryPages]
  omega

/-! ## The largest segment -/

/-- While every conventional descriptor is shorter than the address space, the
loop keeps the first of the largest ones. -/
private theorem largestSegment_eq (map : EfiMemoryMap)
    (hpages : ∀ desc ∈ map, desc.IsConventional →
      0 < desc.pages.toNat ∧ desc.pages.toNat < 2 ^ 52) :
    largestSegment map =
      (largestConventional map).elim (0, 0) fun desc => (desc.physAddr, desc.pages * 4096) := by
  induction map using List.reverseRecOn with
  | nil => rfl
  | append_singleton map desc ih =>
      have hbytes : ∀ other ∈ map ++ [desc], other.IsConventional →
          (other.pages * 4096).toNat = other.pages.toNat * 4096 := by
        intro other hother hconventional
        have hsmall := (hpages other hother hconventional).2
        rw [BitVec.toNat_mul]
        change other.pages.toNat * 4096 % 2 ^ 64 = _
        omega
      have hleading := ih fun other hother => hpages other (List.mem_append_left _ hother)
      rw [largestSegment, List.foldl_concat, ← largestSegment, hleading]
      by_cases hconventional : desc.IsConventional
      · have htype : desc.type = 7 := hconventional
        have hdesc := hbytes desc (by simp) hconventional
        have hpos := (hpages desc (by simp) hconventional).1
        rw [largestConventional_concat hconventional, if_pos htype]
        cases hlargest : largestConventional map with
        | none =>
            have hnonzero : desc.pages * 4096 > 0 := by
              rw [gt_iff_lt, BitVec.lt_def, hdesc]
              change 0 < _
              omega
            exact if_pos hnonzero
        | some best =>
            have hbest := largestConventional_mem hlargest
            have hbestBytes := hbytes best (by simp [hbest.1]) hbest.2
            have hlonger : desc.pages * 4096 > best.pages * 4096 ↔
                best.pages.toNat < desc.pages.toNat := by
              rw [gt_iff_lt, BitVec.lt_def, hdesc, hbestBytes]
              omega
            simp only [Option.elim_some, hlonger]
            split_ifs <;> rfl
      · have htype : ¬ desc.type = 7 := hconventional
        rw [largestConventional_concat_of_not hconventional, if_neg htype]

theorem largestSegment_fst (hvalid : Valid map) : (largestSegment map).1 = bitmapBase map := by
  by_cases hall : ∃ desc ∈ map, desc.pages.toNat = 2 ^ 52
  · -- `pages * 4096` is 0 modulo `2^64`: nothing is kept, and the segment starts at 0.
    obtain ⟨desc, hdesc, hpages⟩ := hall
    obtain rfl := hvalid.eq_singleton hdesc hpages
    have hinside := hvalid.inside desc hdesc
    have haligned := hvalid.aligned desc hdesc
    have hstart : desc.physAddr = 0 := by
      apply BitVec.eq_of_toNat_eq
      unfold EfiMemoryDescriptor.firstPage pageIndex at hinside
      change desc.physAddr.toNat = 0
      omega
    have hbytes : desc.pages * 4096 = 0 := by
      apply BitVec.eq_of_toNat_eq
      rw [BitVec.toNat_mul, hpages]
      rfl
    have hbase : bitmapBase [desc] = 0 := by
      unfold bitmapBase largestConventional
      by_cases hconventional : desc.IsConventional <;> simp [hconventional, hstart]
    rw [hbase, largestSegment, List.foldl_cons, List.foldl_nil, hbytes, hstart]
    split_ifs <;> rfl
  · push Not at hall
    rw [largestSegment_eq, bitmapBase]
    · cases largestConventional map <;> rfl
    · intro desc hdesc _
      have := hvalid.inside desc hdesc
      have := hvalid.nonempty desc hdesc
      have := hall desc hdesc
      omega

/-! ## Clearing the bitmap -/

/-- The `uint32_t` counter of `bitmapInit` never reaches a bound of `2^32`. -/
theorem clearLoop_eq_none {size : Word64} (hsize : 2 ^ 32 ≤ size.toNat) (buffer : Word64)
    (fuel : ℕ) (i : Word32) (memory : Memory) :
    clearLoop size buffer fuel i memory = none := by
  induction fuel generalizing i memory with
  | zero => rfl
  | succ fuel ih =>
      have hlt : i.setWidth 64 < size := by
        have := i.isLt
        rw [BitVec.lt_def, BitVec.toNat_setWidth]
        omega
      rw [clearLoop, if_pos hlt]
      exact ih _ _

private theorem clearLoop_eq_some_aux {size : Word64} (hsize : size.toNat < 2 ^ 32)
    (buffer : Word64) (original : Memory) (rest : ℕ) :
    ∀ i fuel memory, i + rest = size.toNat → rest < fuel →
      memory = store original buffer i (fun _ => 0) →
      clearLoop size buffer fuel (BitVec.ofNat 32 i) memory =
        some (store original buffer size.toNat fun _ => 0) := by
  induction rest with
  | zero =>
      rintro i fuel memory hi hfuel rfl
      obtain ⟨fuel, rfl⟩ : ∃ less, fuel = less + 1 := ⟨fuel - 1, by omega⟩
      have hge : ¬ (BitVec.ofNat 32 i).setWidth 64 < size := by
        rw [BitVec.lt_def, BitVec.toNat_setWidth, BitVec.toNat_ofNat]
        omega
      rw [clearLoop, if_neg hge, ← hi, Nat.add_zero]
  | succ rest ih =>
      rintro i fuel memory hi hfuel rfl
      obtain ⟨fuel, rfl⟩ : ∃ less, fuel = less + 1 := ⟨fuel - 1, by omega⟩
      have hlt : (BitVec.ofNat 32 i).setWidth 64 < size := by
        rw [BitVec.lt_def, BitVec.toNat_setWidth, BitVec.toNat_ofNat]
        omega
      have hnext : BitVec.ofNat 32 i + 1 = BitVec.ofNat 32 (i + 1) := by
        rw [BitVec.ofNat_add]
        rfl
      have hwide : (BitVec.ofNat 32 i).setWidth 64 = BitVec.ofNat 64 i := by
        apply BitVec.eq_of_toNat_eq
        rw [BitVec.toNat_setWidth, BitVec.toNat_ofNat, BitVec.toNat_ofNat]
        omega
      rw [clearLoop, if_pos hlt, hnext, hwide]
      exact ih (i + 1) fuel _ (by omega) (by omega) (store8_store _ _ _ (by omega))

/-- Below that bound the loop zeroes exactly the bytes of the bitmap. -/
theorem clearLoop_eq_some {size : Word64} (hsize : size.toNat < 2 ^ 32) (buffer : Word64)
    (memory : Memory) :
    clearLoop size buffer (2 ^ 32) 0 memory =
      some (store memory buffer size.toNat fun _ => 0) := by
  exact clearLoop_eq_some_aux hsize buffer memory size.toNat 0 (2 ^ 32) memory (by omega) hsize
    (store_zero _ _ _).symm

theorem bitmapInit_eq_some {size bufferAddr : Word64}
    (hinit : bitmapInit s size bufferAddr = some s') :
    size.toNat < 2 ^ 32 ∧ s' = { s with
      pageBitmap := ⟨size, bufferAddr⟩
      memory := store s.memory bufferAddr size.toNat fun _ => 0 } := by
  rw [bitmapInit] at hinit
  by_cases hsmall : size.toNat < 2 ^ 32
  · rw [clearLoop_eq_some hsmall, Option.map_some, Option.some.injEq] at hinit
    exact ⟨hsmall, hinit.symm⟩
  · rw [clearLoop_eq_none (by omega)] at hinit
    cases hinit

/-- The loop ends after some number of passes.  It has put zero into the bytes of the bitmap
and left the others alone. -/
def ClearsBitmap (s : PageAllocator) (size bufferAddr : Word64) : Prop :=
  ∃ fuel memory, clearLoop size bufferAddr fuel 0 s.memory = some memory ∧
    bitmapInit s size bufferAddr =
      some { s with pageBitmap := ⟨size, bufferAddr⟩, memory := memory } ∧
    (∀ address, offset bufferAddr address < size.toNat → memory address = 0) ∧
    AgreeOutside {address | offset bufferAddr address < size.toNat} s.memory memory

theorem not_clearsBitmap {size : Word64} (hlarge : 2 ^ 32 ≤ size.toNat) (bufferAddr : Word64) :
    ¬ ClearsBitmap s size bufferAddr := by
  rintro ⟨fuel, memory, hloop, -⟩
  rw [clearLoop_eq_none hlarge] at hloop
  cases hloop

/-- `bitmapInit` clears the bitmap exactly for the sizes that its counter can reach. -/
theorem bitmapInit_clears_iff (s : PageAllocator) (size bufferAddr : Word64) :
    ClearsBitmap s size bufferAddr ↔ size.toNat < 2 ^ 32 := by
  constructor
  · intro hclears
    by_contra hlarge
    exact not_clearsBitmap (not_lt.mp hlarge) bufferAddr hclears
  · intro hsmall
    have hloop := clearLoop_eq_some hsmall bufferAddr s.memory
    refine ⟨2 ^ 32, _, hloop, ?_, fun address hinside => store_of_offset_lt hinside, ?_⟩
    · rw [bitmapInit, hloop]
      rfl
    · exact agreeOutside_store s.memory _ fun _ hinside => hinside

/-- A bitmap of 4 GiB, and a map with a large range of MMIO that asks for it. -/
theorem large_bitmap_not_cleared :
    ¬ ClearsBitmap (atBoot fun _ => 0) 0x100000000 0x1000 ∧
      readMap (atBoot fun _ => 0) [⟨7, 0x1000, 16⟩, ⟨11, 0x10000000000, 0x800000000⟩] = none := by
  refine ⟨not_clearsBitmap (by decide) _, ?_⟩
  rw [readMap, if_neg (by decide)]
  dsimp only
  rw [bitmapInit, clearLoop_eq_none (by decide +kernel)]
  rfl

theorem bitAt_cleared {memory : Memory} {buffer : Word64} {bytes : ℕ} (hbytes : bytes ≤ 2 ^ 49)
    (hpage : page < 8 * bytes) :
    bitAt (store memory buffer bytes fun _ => 0) buffer page = false := by
  have hoffset := offset_add_ofNat buffer (show page / 8 < 2 ^ 64 by omega)
  rw [bitAt, store_of_offset_lt (by omega)]
  simp

/-! ## The marked pages after `readMap` -/

theorem releaseConventional_pageBitmap (s : PageAllocator) (map : EfiMemoryMap) :
    (releaseConventional s map).pageBitmap = s.pageBitmap := by
  induction map generalizing s with
  | nil => rfl
  | cons desc map ih =>
      rw [releaseConventional, List.foldl_cons, ← releaseConventional, ih]
      split_ifs
      · exact releases_pageBitmap s _ _
      · rfl

/-- The release pass unmarks exactly `releasedPages`. -/
theorem marked_releaseConventional (hsize : s.pageBitmap.WellSized) (hpage : page ≤ s.reach)
    (hinside : ∀ desc ∈ map, desc.firstPage + desc.pages.toNat ≤ 2 ^ 52) :
    (releaseConventional s map).Marked page ↔ s.Marked page ∧ page ∉ releasedPages map := by
  induction map generalizing s with
  | nil => simp [releaseConventional, releasedPages]
  | cons desc map ih =>
      have hsplit : page ∉ releasedPages (desc :: map) ↔
          (desc.IsConventional → ¬ (desc.Covers page ∧ page < desc.firstPage + 2 ^ 19 ∨
            page ∈ wrappedPages desc)) ∧ page ∉ releasedPages map := by
        simp [releasedPages]
      have hrest : ∀ other ∈ map, other.firstPage + other.pages.toNat ≤ 2 ^ 52 :=
        fun other hother => hinside other (List.mem_cons_of_mem _ hother)
      rw [releaseConventional, List.foldl_cons, ← releaseConventional, hsplit]
      by_cases hconventional : desc.type = 7
      · have hconventional' : desc.IsConventional := hconventional
        rw [if_pos hconventional, ih (by rwa [releases_pageBitmap])
          (by rwa [PageAllocator.reach, releases_pageBitmap]) hrest, marked_releases hsize hpage]
        have hstep := exists_release_step_iff (hinside desc List.mem_cons_self) page
        simp only [hconventional', true_implies, ← hstep]
        push Not
        rw [and_assoc]
      · have hconventional' : ¬ desc.IsConventional := hconventional
        rw [if_neg hconventional, ih hsize hpage hrest]
        simp [hconventional']

/-- What `readMap` leaves behind: the bitmap at `bitmapBase`, and in it the locked
and reserved pages less the released ones. -/
structure Booted (map : EfiMemoryMap) (s : PageAllocator) : Prop where
  pageBitmap : s.pageBitmap = ⟨BitVec.ofNat 64 (bitmapBytes map), bitmapBase map⟩
  small : bitmapBytes map < 2 ^ 32
  marked : ∀ page < 8 * bitmapBytes map,
    s.Marked page ↔ (page ∈ lockedPages map ∨ page ∈ reservedPages map) ∧
      page ∉ releasedPages map
  unmarked : ∀ page ≤ 8 * bitmapBytes map, s.Marked page → page ∉ releasedPages map

theorem bitmapBytes_le (map : EfiMemoryMap) : bitmapBytes map ≤ 2 ^ 49 := by
  unfold bitmapBytes memoryPages
  omega

theorem bitmapSize_toNat {memSize : Word64} (hmemSize : memSize.toNat = memoryPages map * 4096) :
    (memSize / 4096 / 8 + 1).toNat = bitmapBytes map := by
  have hle := bitmapBytes_le map
  rw [BitVec.toNat_add, BitVec.toNat_udiv, BitVec.toNat_udiv, hmemSize]
  change (memoryPages map * 4096 / 4096 / 8 + 1) % 2 ^ 64 = _
  unfold bitmapBytes at hle ⊢
  omega

theorem exists_lock_step_iff :
    (∃ i < bitmapBytes map / 4096 + 1, page = pageIndex (wideStep (bitmapBase map) i)) ↔
      page ∈ lockedPages map := by
  have hle := bitmapBytes_le map
  constructor
  · rintro ⟨i, hi, rfl⟩
    exact ⟨i, by omega, pageIndex_wideStep _ (by omega)⟩
  · rintro ⟨i, hi, rfl⟩
    exact ⟨i, by omega, (pageIndex_wideStep _ (by omega)).symm⟩

private theorem exists_reserve_step_iff {count : Word64}
    (hcount : count.toNat = memoryPages map + 1) (hsmall : bitmapBytes map < 2 ^ 32)
    (hpage : page < 8 * bitmapBytes map) :
    (∃ i < intPasses count, page = pageIndex (intStep 0 (BitVec.ofNat 32 i))) ↔
      page ∈ reservedPages map := by
  have hpasses : intPasses count = min (memoryPages map + 1) (2 ^ 31) := by
    unfold intPasses
    unfold bitmapBytes at hsmall
    rw [hcount]
    split_ifs <;> omega
  have hzero : pageIndex 0 = 0 := rfl
  unfold bitmapBytes at hsmall hpage
  constructor
  · rintro ⟨i, hi, rfl⟩
    rw [pageIndex_intStep, hzero] at hpage ⊢
    split_ifs at hpage ⊢
    · change _ ≤ _ ∧ _ < _
      omega
    · omega
  · rintro ⟨hle, hnear⟩
    refine ⟨page, by omega, ?_⟩
    rw [pageIndex_intStep, hzero, if_pos (by omega)]
    omega

/-- `readMap` on a fresh allocator, with the sums and the segment it computes
replaced by what they are. -/
private theorem readMap_fresh (hvalid : Valid map) (hfresh : Fresh s) :
    ∃ (cleared : PageAllocator) (size count : Word64),
      size.toNat = bitmapBytes map ∧ count.toNat = memoryPages map + 1 ∧
      readMap s map =
        (bitmapInit cleared size (bitmapBase map)).map fun s =>
          releaseConventional
            ((s.locks s.pageBitmap.buffer (s.pageBitmap.size / 4096 + 1)).reserves 0 count)
            map := by
  have hlength := hvalid.length_le
  let started : PageAllocator := { s with initialized := true }
  let memSize := (getMemorySize started map).1
  have hmemSize : memSize.toNat = memoryPages map * 4096 :=
    getMemorySize_fresh (s := started) hfresh.2 (by omega)
  refine ⟨{ (getMemorySize started map).2 with freeMem := memSize }, memSize / 4096 / 8 + 1,
    memSize / 4096 + 1, bitmapSize_toNat hmemSize, ?_, ?_⟩
  · rw [BitVec.toNat_add, BitVec.toNat_udiv, hmemSize]
    change (memoryPages map * 4096 / 4096 + 1) % 2 ^ 64 = _
    unfold memoryPages
    omega
  · rw [readMap, if_neg (by simp [hfresh.1]), largestSegment_fst hvalid]

/-- On a map of `2^47` bytes or more `bitmapInit` never ends. -/
theorem readMap_eq_none (hvalid : Valid map) (hfresh : Fresh s)
    (hlarge : 2 ^ 32 ≤ bitmapBytes map) : readMap s map = none := by
  obtain ⟨cleared, size, count, hsize, -, hread⟩ := readMap_fresh hvalid hfresh
  rw [hread, bitmapInit, clearLoop_eq_none (by rwa [hsize])]
  rfl

theorem readMap_booted (hvalid : Valid map) (hfresh : Fresh s)
    (hsmall : bitmapBytes map < 2 ^ 32) : ∃ s', readMap s map = some s' ∧ Booted map s' := by
  obtain ⟨fresh, size, count, hsize, hcount, hread⟩ := readMap_fresh hvalid hfresh
  have hle := bitmapBytes_le map
  have hsizeWord : size = BitVec.ofNat 64 (bitmapBytes map) := by
    rw [← hsize, BitVec.ofNat_toNat, BitVec.setWidth_eq]
  let cleared : PageAllocator :=
    { fresh with
      pageBitmap := ⟨size, bitmapBase map⟩
      memory := store fresh.memory (bitmapBase map) size.toNat fun _ => 0 }
  let locked := cleared.locks (bitmapBase map) (size / 4096 + 1)
  let reserved := locked.reserves 0 count
  have hlocked : locked.pageBitmap = cleared.pageBitmap := locks_pageBitmap _ _ _
  have hreserved : reserved.pageBitmap = cleared.pageBitmap :=
    (reserves_pageBitmap _ _ _).trans hlocked
  have hbooted : (releaseConventional reserved map).pageBitmap = ⟨size, bitmapBase map⟩ :=
    (releaseConventional_pageBitmap _ _).trans hreserved
  have hwell : cleared.pageBitmap.WellSized := by
    change size.toNat ≤ 2 ^ 49
    omega
  have hreach : cleared.reach = 8 * bitmapBytes map := congrArg (8 * ·) hsize
  have hlockedReach : locked.reach = 8 * bitmapBytes map := by
    rw [PageAllocator.reach, hlocked]
    exact hreach
  have hreservedReach : reserved.reach = 8 * bitmapBytes map := by
    rw [PageAllocator.reach, hreserved]
    exact hreach
  have hlockCount : (size / 4096 + 1).toNat = bitmapBytes map / 4096 + 1 := by
    rw [BitVec.toNat_add, BitVec.toNat_udiv, hsize]
    change (bitmapBytes map / 4096 + 1) % 2 ^ 64 = _
    omega
  have hreleased : ∀ page ≤ 8 * bitmapBytes map,
      (releaseConventional reserved map).Marked page ↔
        reserved.Marked page ∧ page ∉ releasedPages map := by
    intro page hpage
    exact marked_releaseConventional (hreserved ▸ hwell) (by rwa [hreservedReach]) hvalid.inside
  refine ⟨releaseConventional reserved map, ?_, ?_, hsmall, ?_, ?_⟩
  · rw [hread, bitmapInit, clearLoop_eq_some (by rwa [hsize])]
    rfl
  · rw [hbooted, hsizeWord]
  · intro page hpage
    have hclear : ¬ cleared.Marked page := by
      rw [PageAllocator.Marked, bitAt_cleared (by omega) (by omega)]
      simp
    rw [hreleased page (by omega), marked_reserves (hlocked ▸ hwell) (by omega),
      marked_locks hwell (by omega), hlockCount, exists_lock_step_iff,
      exists_reserve_step_iff hcount hsmall hpage]
    simp only [hclear, false_or]
  · intro page hpage hmarked
    exact ((hreleased page hpage).mp hmarked).2

end RedX.ReadMap
