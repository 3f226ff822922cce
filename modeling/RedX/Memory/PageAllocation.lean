import RedX.Core.CountedLoop
import RedX.Libs.PageBitmap

/-!
# The page allocator

`class pageAllocator` of `memory/memory.cpp` with its globals: the counters,
`initialized`, the static total of `getMemorySize` and the scan position
`pageI`.  A page is marked when its bit is set.  `lock` and `reserve` mark a
page, `free` and `release` unmark it, and each pair differs only in the counter
that is charged.
-/

namespace RedX.PageAllocation

open RedX.MachineWord
open RedX.ByteMemory
open RedX.BitArray
open RedX.CountedLoop
open RedX.PageBitmap

structure PageAllocator where
  memory : Memory
  pageBitmap : Bitmap
  freeMem : Word64
  reservedMem : Word64
  usedMem : Word64
  initialized : Bool
  memSizeBytes : Word64
  pageI : Word64

/-- The counter that a marked page is charged to. -/
inductive Counter
  | used
  | reserved

def PageAllocator.charge (s : PageAllocator) : Counter → PageAllocator
  | .used => { s with freeMem := s.freeMem - 4096, usedMem := s.usedMem + 4096 }
  | .reserved => { s with freeMem := s.freeMem - 4096, reservedMem := s.reservedMem + 4096 }

def PageAllocator.discharge (s : PageAllocator) : Counter → PageAllocator
  | .used => { s with freeMem := s.freeMem + 4096, usedMem := s.usedMem - 4096 }
  | .reserved => { s with freeMem := s.freeMem + 4096, reservedMem := s.reservedMem - 4096 }

def PageAllocator.mark (s : PageAllocator) (counter : Counter) (addr : Word64) : PageAllocator :=
  let index := addr / 4096
  if s.pageBitmap.get s.memory index = true then s
  else
    let result := s.pageBitmap.set s.memory index true
    let s := { s with memory := result.2 }
    if result.1 then s.charge counter else s

def PageAllocator.unmark (s : PageAllocator) (counter : Counter) (addr : Word64) :
    PageAllocator :=
  let index := addr / 4096
  if s.pageBitmap.get s.memory index = false then s
  else
    let result := s.pageBitmap.set s.memory index false
    let s := { s with memory := result.2 }
    if result.1 then
      let s := if s.pageI > index then { s with pageI := index } else s
      s.discharge counter
    else s

/-- `pageAllocator::lock` -/
def PageAllocator.lock (s : PageAllocator) (addr : Word64) : PageAllocator :=
  s.mark .used addr

/-- `pageAllocator::free` -/
def PageAllocator.free (s : PageAllocator) (addr : Word64) : PageAllocator :=
  s.unmark .used addr

/-- `pageAllocator::reserve` -/
def PageAllocator.reserve (s : PageAllocator) (addr : Word64) : PageAllocator :=
  s.mark .reserved addr

/-- `pageAllocator::release` -/
def PageAllocator.release (s : PageAllocator) (addr : Word64) : PageAllocator :=
  s.unmark .reserved addr

/-- Address of page `i` of a range when the loop counter is a `uint64_t`. -/
def wideStep (addr : Word64) (i : ℕ) : Word64 := addr + BitVec.ofNat 64 i * 4096

/-- Address of page `i` of a range when the loop counter is an `int`: the
product `i * 4096` wraps at 32 bits before it is added. -/
def intStep (addr : Word64) (i : Word32) : Word64 := addr + (i * 4096).signExtend 64

/-- `pageAllocator::locks`, the one range operation with a `uint64_t` counter. -/
def PageAllocator.locks (s : PageAllocator) (addr count : Word64) : PageAllocator :=
  forLoop count.toNat (fun i s => s.lock (wideStep addr i)) s

/-- `pageAllocator::frees` -/
def PageAllocator.frees (s : PageAllocator) (addr count : Word64) : PageAllocator :=
  intFor count (fun i s => s.free (intStep addr i)) s

/-- `pageAllocator::reserves` -/
def PageAllocator.reserves (s : PageAllocator) (addr count : Word64) : PageAllocator :=
  intFor count (fun i s => s.reserve (intStep addr i)) s

/-- `pageAllocator::releases` -/
def PageAllocator.releases (s : PageAllocator) (addr count : Word64) : PageAllocator :=
  intFor count (fun i s => s.release (intStep addr i)) s

/-- The bound of both scans of `getPage`. -/
def PageAllocator.scanEnd (s : PageAllocator) : Word64 := s.pageBitmap.size * 8 - 1

/-- One scan of `getPage`: advance `pageI` to the first unmarked page and lock
it.  `fuel` bounds the number of pages looked at. -/
def PageAllocator.scan (s : PageAllocator) : ℕ → Option Word64 × PageAllocator
  | 0 => (none, s)
  | fuel + 1 =>
      if s.pageI < s.scanEnd then
        if s.pageBitmap.get s.memory s.pageI = true then
          PageAllocator.scan { s with pageI := s.pageI + 1 } fuel
        else (some (s.pageI * 4096), s.lock (s.pageI * 4096))
      else (none, s)

/-- `pageAllocator::getPage`.  The result is `none` where the source panics with
"Out of RAM" and halts. -/
def PageAllocator.getPage (s : PageAllocator) : Option (Word64 × PageAllocator) :=
  let fuel := s.scanEnd.toNat + 1
  match s.scan fuel with
  | (some page, s) => some (page, s)
  | (none, s) =>
      match ({ s with pageI := 0 } : PageAllocator).scan fuel with
      | (some page, s) => some (page, s)
      | (none, _) => none

/-! ## What the marking steps do to the bitmap -/

/-- Bits `0 .. size * 8` are the ones that `operator[]` and `set` reach; the last
of them is the first bit after the buffer. -/
def PageAllocator.reach (s : PageAllocator) : ℕ := 8 * s.pageBitmap.size.toNat

/-- The page with this index is marked. -/
def PageAllocator.Marked (s : PageAllocator) (page : ℕ) : Prop :=
  bitAt s.memory s.pageBitmap.buffer page = true

instance (s : PageAllocator) (page : ℕ) : Decidable (s.Marked page) :=
  inferInstanceAs (Decidable (_ = true))

variable {s : PageAllocator} {addr : Word64} {page : ℕ}

@[simp]
theorem charge_memory (s : PageAllocator) (counter : Counter) :
    (s.charge counter).memory = s.memory := by
  cases counter <;> simp only [PageAllocator.charge]

@[simp]
theorem charge_pageBitmap (s : PageAllocator) (counter : Counter) :
    (s.charge counter).pageBitmap = s.pageBitmap := by
  cases counter <;> simp only [PageAllocator.charge]

@[simp]
theorem discharge_memory (s : PageAllocator) (counter : Counter) :
    (s.discharge counter).memory = s.memory := by
  cases counter <;> simp only [PageAllocator.discharge]

@[simp]
theorem discharge_pageBitmap (s : PageAllocator) (counter : Counter) :
    (s.discharge counter).pageBitmap = s.pageBitmap := by
  cases counter <;> simp only [PageAllocator.discharge]

@[simp]
theorem mark_pageBitmap (s : PageAllocator) (counter : Counter) (addr : Word64) :
    (s.mark counter addr).pageBitmap = s.pageBitmap := by
  unfold PageAllocator.mark
  dsimp only
  split
  · rfl
  · split <;> simp

@[simp]
theorem mark_pageI (s : PageAllocator) (counter : Counter) (addr : Word64) :
    (s.mark counter addr).pageI = s.pageI := by
  rw [PageAllocator.mark]
  dsimp only
  split_ifs
  · rfl
  · cases counter <;> rfl
  · rfl

@[simp]
theorem unmark_pageBitmap (s : PageAllocator) (counter : Counter) (addr : Word64) :
    (s.unmark counter addr).pageBitmap = s.pageBitmap := by
  unfold PageAllocator.unmark
  dsimp only
  split
  · rfl
  · split
    · rw [discharge_pageBitmap]
      split <;> rfl
    · rfl

theorem toNat_div_page (addr : Word64) : (addr / 4096).toNat = pageIndex addr := by
  rw [BitVec.toNat_udiv]
  rfl

/-- The bit of a page up to the limit is read and written. -/
theorem access_page (hlimit : pageIndex addr ≤ s.pageBitmap.limit) (value : Bool) :
    s.pageBitmap.get s.memory (addr / 4096) =
        bitAt s.memory s.pageBitmap.buffer (pageIndex addr) ∧
      (s.pageBitmap.set s.memory (addr / 4096) value).1 = true := by
  rw [get_of_le_limit (by rwa [toNat_div_page]), set_of_le_limit (by rwa [toNat_div_page]),
    toNat_div_page]
  exact ⟨rfl, rfl⟩

/-- `mark` on a bitmap of any size. -/
theorem mark_eq_limit (s : PageAllocator) (counter : Counter) (addr : Word64) :
    s.mark counter addr =
      if pageIndex addr ≤ s.pageBitmap.limit ∧ ¬ s.Marked (pageIndex addr) then
        ({ s with memory := (s.pageBitmap.set s.memory (addr / 4096) true).2 } :
          PageAllocator).charge counter
      else s := by
  by_cases hlimit : pageIndex addr ≤ s.pageBitmap.limit
  · obtain ⟨hget, hset⟩ := access_page hlimit true
    by_cases hmarked : s.Marked (pageIndex addr)
    · rw [if_neg (by tauto), PageAllocator.mark, if_pos (by rw [hget]; exact hmarked)]
    · rw [if_pos ⟨hlimit, hmarked⟩, PageAllocator.mark, if_neg (by rw [hget]; exact hmarked)]
      dsimp only
      rw [hset, if_pos rfl]
  · have houtside : s.pageBitmap.limit < (addr / 4096).toNat := by
      rw [toNat_div_page]
      omega
    rw [if_neg (by tauto), PageAllocator.mark, get_of_limit_lt houtside, if_neg (by simp),
      set_of_limit_lt houtside]
    rfl

/-- `mark` sets the bit of an unmarked page in reach and charges the counter; every other
page it leaves as it is. -/
theorem mark_eq (hsize : s.pageBitmap.WellSized) (counter : Counter) :
    s.mark counter addr =
      if pageIndex addr ≤ s.reach ∧ ¬ s.Marked (pageIndex addr) then
        ({ s with memory := (s.pageBitmap.set s.memory (addr / 4096) true).2 } :
          PageAllocator).charge counter
      else s := by
  rw [mark_eq_limit, limit_eq hsize, PageAllocator.reach]

/-- The scan position after `unmark` has cleared a bit. -/
def PageAllocator.rescan (s : PageAllocator) (index : Word64) : Word64 :=
  if s.pageI > index then index else s.pageI

/-- `unmark` on a bitmap of any size. -/
theorem unmark_eq_limit (s : PageAllocator) (counter : Counter) (addr : Word64) :
    s.unmark counter addr =
      if pageIndex addr ≤ s.pageBitmap.limit ∧ s.Marked (pageIndex addr) then
        ({ s with
            memory := (s.pageBitmap.set s.memory (addr / 4096) false).2
            pageI := s.rescan (addr / 4096) } : PageAllocator).discharge counter
      else s := by
  by_cases hlimit : pageIndex addr ≤ s.pageBitmap.limit
  · obtain ⟨hget, hset⟩ := access_page hlimit false
    by_cases hmarked : s.Marked (pageIndex addr)
    · have hset_bit : ¬ s.pageBitmap.get s.memory (addr / 4096) = false := by
        rw [hget]
        simpa [PageAllocator.Marked] using hmarked
      rw [if_pos ⟨hlimit, hmarked⟩, PageAllocator.unmark, if_neg hset_bit]
      dsimp only
      rw [hset, if_pos rfl, PageAllocator.rescan]
      split_ifs <;> rfl
    · have hclear : s.pageBitmap.get s.memory (addr / 4096) = false := by
        rw [hget]
        simpa [PageAllocator.Marked] using hmarked
      rw [if_neg (by tauto), PageAllocator.unmark, if_pos hclear]
  · have houtside : s.pageBitmap.limit < (addr / 4096).toNat := by
      rw [toNat_div_page]
      omega
    rw [if_neg (by tauto), PageAllocator.unmark, get_of_limit_lt houtside, if_pos rfl]

/-- `unmark` clears the bit of a marked page in reach and discharges the counter. -/
theorem unmark_eq (hsize : s.pageBitmap.WellSized) (counter : Counter) :
    s.unmark counter addr =
      if pageIndex addr ≤ s.reach ∧ s.Marked (pageIndex addr) then
        ({ s with
            memory := (s.pageBitmap.set s.memory (addr / 4096) false).2
            pageI := s.rescan (addr / 4096) } : PageAllocator).discharge counter
      else s := by
  rw [unmark_eq_limit, limit_eq hsize, PageAllocator.reach]

/-- The memory after `mark`: the bit of an unmarked page in reach is set. -/
theorem mark_memory (hsize : s.pageBitmap.WellSized) (counter : Counter) :
    (s.mark counter addr).memory =
      if pageIndex addr ≤ s.reach ∧ ¬ s.Marked (pageIndex addr) then
        (s.pageBitmap.set s.memory (addr / 4096) true).2
      else s.memory := by
  rw [mark_eq hsize]
  split_ifs
  · rw [charge_memory]
  · rfl

theorem unmark_memory (hsize : s.pageBitmap.WellSized) (counter : Counter) :
    (s.unmark counter addr).memory =
      if pageIndex addr ≤ s.reach ∧ s.Marked (pageIndex addr) then
        (s.pageBitmap.set s.memory (addr / 4096) false).2
      else s.memory := by
  rw [unmark_eq hsize]
  split_ifs
  · rw [discharge_memory]
  · rfl

/-- Writing the bit of a page in reach leaves the bits of the others. -/
theorem bitAt_set_page (hsize : s.pageBitmap.WellSized) (haddr : pageIndex addr ≤ s.reach)
    (value : Bool) (hpage : page ≤ s.reach) :
    bitAt (s.pageBitmap.set s.memory (addr / 4096) value).2 s.pageBitmap.buffer page =
      if page = pageIndex addr then value else bitAt s.memory s.pageBitmap.buffer page := by
  have hreach : (addr / 4096).toNat ≤ 8 * s.pageBitmap.size.toNat := by
    rw [toNat_div_page]
    exact haddr
  have hbound : page < 2 ^ 64 := by
    unfold PageAllocator.reach at hpage
    unfold Bitmap.WellSized at hsize
    omega
  rw [bitAt_set hsize hreach _ hbound, toNat_div_page]

/-- `mark` adds one page to the marked ones and leaves the others alone. -/
theorem marked_mark (hsize : s.pageBitmap.WellSized) (counter : Counter)
    (hpage : page ≤ s.reach) :
    (s.mark counter addr).Marked page ↔ s.Marked page ∨ page = pageIndex addr := by
  rw [PageAllocator.Marked, mark_pageBitmap, mark_memory hsize]
  split_ifs with hset
  · rw [bitAt_set_page hsize hset.1 true hpage]
    by_cases hsame : page = pageIndex addr <;> simp [hsame, PageAllocator.Marked]
  · constructor
    · exact Or.inl
    · rintro (hmarked | rfl)
      · exact hmarked
      · by_contra hmarked
        exact hset ⟨hpage, hmarked⟩

/-- `unmark` removes one page from the marked ones and leaves the others alone. -/
theorem marked_unmark (hsize : s.pageBitmap.WellSized) (counter : Counter)
    (hpage : page ≤ s.reach) :
    (s.unmark counter addr).Marked page ↔ s.Marked page ∧ page ≠ pageIndex addr := by
  rw [PageAllocator.Marked, unmark_pageBitmap, unmark_memory hsize]
  split_ifs with hset
  · rw [bitAt_set_page hsize hset.1 false hpage]
    by_cases hsame : page = pageIndex addr <;> simp [hsame, PageAllocator.Marked]
  · constructor
    · intro hmarked
      refine ⟨hmarked, ?_⟩
      rintro rfl
      exact hset ⟨hpage, hmarked⟩
    · exact And.left

/-! ## Ranges of pages -/

section Ranges

variable {step : ℕ → Word64} {count : ℕ} {counter : Counter}

@[simp]
theorem forLoop_mark_pageBitmap (s : PageAllocator) (counter : Counter) (step : ℕ → Word64)
    (count : ℕ) :
    (forLoop count (fun i s => s.mark counter (step i)) s).pageBitmap = s.pageBitmap := by
  induction count with
  | zero => rfl
  | succ count ih => rw [forLoop_succ, mark_pageBitmap, ih]

@[simp]
theorem forLoop_unmark_pageBitmap (s : PageAllocator) (counter : Counter) (step : ℕ → Word64)
    (count : ℕ) :
    (forLoop count (fun i s => s.unmark counter (step i)) s).pageBitmap = s.pageBitmap := by
  induction count with
  | zero => rfl
  | succ count ih => rw [forLoop_succ, unmark_pageBitmap, ih]

theorem marked_forLoop_mark (hsize : s.pageBitmap.WellSized) (hpage : page ≤ s.reach) :
    (forLoop count (fun i s => s.mark counter (step i)) s).Marked page ↔
      s.Marked page ∨ ∃ i < count, page = pageIndex (step i) := by
  induction count with
  | zero => simp
  | succ count ih =>
      rw [forLoop_succ, marked_mark, ih, Nat.exists_lt_succ_right, or_assoc]
      · rwa [forLoop_mark_pageBitmap]
      · rwa [PageAllocator.reach, forLoop_mark_pageBitmap]

theorem marked_forLoop_unmark (hsize : s.pageBitmap.WellSized) (hpage : page ≤ s.reach) :
    (forLoop count (fun i s => s.unmark counter (step i)) s).Marked page ↔
      s.Marked page ∧ ∀ i < count, page ≠ pageIndex (step i) := by
  induction count with
  | zero => simp
  | succ count ih =>
      rw [forLoop_succ, marked_unmark, ih, Nat.forall_lt_succ_right, and_assoc]
      · rwa [forLoop_unmark_pageBitmap]
      · rwa [PageAllocator.reach, forLoop_unmark_pageBitmap]

end Ranges

@[simp]
theorem lock_pageBitmap (s : PageAllocator) (addr : Word64) :
    (s.lock addr).pageBitmap = s.pageBitmap :=
  mark_pageBitmap s .used addr

@[simp]
theorem lock_pageI (s : PageAllocator) (addr : Word64) : (s.lock addr).pageI = s.pageI :=
  mark_pageI s .used addr

@[simp]
theorem free_pageBitmap (s : PageAllocator) (addr : Word64) :
    (s.free addr).pageBitmap = s.pageBitmap :=
  unmark_pageBitmap s .used addr

@[simp]
theorem locks_pageBitmap (s : PageAllocator) (addr count : Word64) :
    (s.locks addr count).pageBitmap = s.pageBitmap :=
  forLoop_mark_pageBitmap s .used (wideStep addr) count.toNat

@[simp]
theorem reserves_pageBitmap (s : PageAllocator) (addr count : Word64) :
    (s.reserves addr count).pageBitmap = s.pageBitmap := by
  rw [PageAllocator.reserves, intFor_eq_forLoop]
  exact forLoop_mark_pageBitmap s .reserved _ _

@[simp]
theorem releases_pageBitmap (s : PageAllocator) (addr count : Word64) :
    (s.releases addr count).pageBitmap = s.pageBitmap := by
  rw [PageAllocator.releases, intFor_eq_forLoop]
  exact forLoop_unmark_pageBitmap s .reserved _ _

theorem marked_lock (hsize : s.pageBitmap.WellSized) (hpage : page ≤ s.reach) :
    (s.lock addr).Marked page ↔ s.Marked page ∨ page = pageIndex addr :=
  marked_mark hsize .used hpage

theorem marked_free (hsize : s.pageBitmap.WellSized) (hpage : page ≤ s.reach) :
    (s.free addr).Marked page ↔ s.Marked page ∧ page ≠ pageIndex addr :=
  marked_unmark hsize .used hpage

theorem marked_locks (hsize : s.pageBitmap.WellSized) (hpage : page ≤ s.reach)
    {count : Word64} :
    (s.locks addr count).Marked page ↔
      s.Marked page ∨ ∃ i < count.toNat, page = pageIndex (wideStep addr i) :=
  marked_forLoop_mark hsize hpage

theorem marked_reserves (hsize : s.pageBitmap.WellSized) (hpage : page ≤ s.reach)
    {count : Word64} :
    (s.reserves addr count).Marked page ↔
      s.Marked page ∨
        ∃ i < intPasses count, page = pageIndex (intStep addr (BitVec.ofNat 32 i)) := by
  rw [PageAllocator.reserves, intFor_eq_forLoop]
  exact marked_forLoop_mark hsize hpage

theorem marked_releases (hsize : s.pageBitmap.WellSized) (hpage : page ≤ s.reach)
    {count : Word64} :
    (s.releases addr count).Marked page ↔
      s.Marked page ∧
        ∀ i < intPasses count, page ≠ pageIndex (intStep addr (BitVec.ofNat 32 i)) := by
  rw [PageAllocator.releases, intFor_eq_forLoop]
  exact marked_forLoop_unmark hsize hpage

/-! ## What `getPage` returns -/

/-- A scan that finds a page stops at the first unmarked index from the scan position on,
and locks that page. -/
theorem scan_stops {fuel : ℕ} {found : Word64} {s' : PageAllocator}
    (hscan : s.scan fuel = (some found, s')) :
    ∃ index : Word64, (index < s.scanEnd ∧ s.pageBitmap.get s.memory index = false ∧
      found = index * 4096 ∧
      s' = ({ s with pageI := index } : PageAllocator).lock (index * 4096)) ∧
      ∀ passed : Word64, s.pageI ≤ passed → passed < index →
        s.pageBitmap.get s.memory passed = true := by
  induction fuel generalizing s with
  | zero => simp [PageAllocator.scan] at hscan
  | succ fuel ih =>
      rw [PageAllocator.scan] at hscan
      split at hscan
      · rename_i hbound
        split at hscan
        · rename_i hmarked
          obtain ⟨index, hstop, hpassed⟩ := ih hscan
          refine ⟨index, hstop, fun passed hfirst hlast => ?_⟩
          by_cases hsame : passed = s.pageI
          · rwa [hsame]
          · refine hpassed passed ?_ hlast
            change s.pageI + 1 ≤ passed
            bv_omega
        · rename_i hclear
          simp only [Prod.mk.injEq, Option.some.injEq] at hscan
          refine ⟨s.pageI, ⟨hbound, by simpa using hclear, hscan.1.symm, hscan.2.symm⟩, ?_⟩
          intro passed hfirst hlast
          bv_omega
      · simp at hscan

/-- A scan that finds no page changes nothing but the scan position. -/
theorem scan_eq_none {fuel : ℕ} {s' : PageAllocator} (hscan : s.scan fuel = (none, s')) :
    ∃ index : Word64, s' = { s with pageI := index } := by
  induction fuel generalizing s with
  | zero =>
      rw [PageAllocator.scan, Prod.mk.injEq] at hscan
      exact ⟨s.pageI, hscan.2.symm⟩
  | succ fuel ih =>
      rw [PageAllocator.scan] at hscan
      split at hscan
      · split at hscan
        · obtain ⟨index, rfl⟩ := ih hscan
          exact ⟨index, rfl⟩
        · simp at hscan
      · rw [Prod.mk.injEq] at hscan
        exact ⟨s.pageI, hscan.2.symm⟩

/-- `getPage` stops at the first unmarked index from the scan position on, or from 0 on, and
locks that page. -/
theorem getPage_stops {found : Word64} {s' : PageAllocator}
    (hget : s.getPage = some (found, s')) :
    ∃ index : Word64, (index < s.scanEnd ∧ s.pageBitmap.get s.memory index = false ∧
      found = index * 4096 ∧
      s' = ({ s with pageI := index } : PageAllocator).lock (index * 4096)) ∧
      ∃ start, (start = s.pageI ∨ start = 0) ∧ ∀ passed : Word64, start ≤ passed →
        passed < index → s.pageBitmap.get s.memory passed = true := by
  rw [PageAllocator.getPage] at hget
  split at hget
  · rename_i hscan
    simp only [Option.some.injEq, Prod.mk.injEq] at hget
    obtain ⟨rfl, rfl⟩ := hget
    obtain ⟨index, hstop, hpassed⟩ := scan_stops hscan
    exact ⟨index, hstop, s.pageI, .inl rfl, hpassed⟩
  · rename_i hfirst
    obtain ⟨stop, rfl⟩ := scan_eq_none hfirst
    split at hget
    · rename_i hscan
      simp only [Option.some.injEq, Prod.mk.injEq] at hget
      obtain ⟨rfl, rfl⟩ := hget
      obtain ⟨index, hstop, hpassed⟩ := scan_stops hscan
      exact ⟨index, hstop, 0, .inr rfl, hpassed⟩
    · simp at hget

theorem getPage_eq_some {found : Word64} {s' : PageAllocator}
    (hget : s.getPage = some (found, s')) :
    ∃ index : Word64, index < s.scanEnd ∧ s.pageBitmap.get s.memory index = false ∧
      found = index * 4096 ∧
      s' = ({ s with pageI := index } : PageAllocator).lock (index * 4096) := by
  obtain ⟨index, hstop, -⟩ := getPage_stops hget
  exact ⟨index, hstop⟩

theorem toNat_scanEnd (hsize : s.pageBitmap.WellSized) (hpos : 0 < s.pageBitmap.size.toNat) :
    s.scanEnd.toNat + 1 = s.reach := by
  have hsmall : s.pageBitmap.size.toNat ≤ 2 ^ 49 := hsize
  have hproduct : (s.pageBitmap.size * 8).toNat = s.reach := by
    rw [BitVec.toNat_mul]
    change s.pageBitmap.size.toNat * 8 % 2 ^ 64 = 8 * s.pageBitmap.size.toNat
    omega
  have hreach : 0 < s.reach := Nat.mul_pos (by omega) hpos
  rw [PageAllocator.scanEnd, BitVec.toNat_sub, hproduct]
  change (2 ^ 64 - 1 + s.reach) % 2 ^ 64 + 1 = s.reach
  unfold PageAllocator.reach at hreach ⊢
  omega

theorem toNat_found {index : Word64} (hindex : index.toNat < 2 ^ 52) :
    pageIndex (index * 4096) = index.toNat := by
  unfold pageIndex
  rw [BitVec.toNat_mul]
  change index.toNat * 4096 % 2 ^ 64 / 4096 = _
  omega

/-- The page that `getPage` returns: aligned, tracked by the bitmap, unmarked
before the call; and the call marks that page only. -/
structure Granted (s : PageAllocator) (found : Word64) (s' : PageAllocator) : Prop where
  aligned : found.toNat % 4096 = 0
  tracked : pageIndex found < s.reach
  unmarked : ¬ s.Marked (pageIndex found)
  pageBitmap : s'.pageBitmap = s.pageBitmap
  marked : ∀ page ≤ s.reach, s'.Marked page ↔ s.Marked page ∨ page = pageIndex found

theorem getPage_granted (hsize : s.pageBitmap.WellSized) (hpos : 0 < s.pageBitmap.size.toNat)
    {found : Word64} {s' : PageAllocator} (hget : s.getPage = some (found, s')) :
    Granted s found s' := by
  obtain ⟨index, hindex, hclear, rfl, rfl⟩ := getPage_eq_some hget
  have hscanEnd := toNat_scanEnd hsize hpos
  have hreach : s.reach = 8 * s.pageBitmap.size.toNat := rfl
  have hsmall : s.pageBitmap.size.toNat ≤ 2 ^ 49 := hsize
  have hbound : index.toNat < 8 * s.pageBitmap.size.toNat := by
    rw [BitVec.lt_def] at hindex
    omega
  have hpage : pageIndex (index * 4096) = index.toNat := toNat_found (by omega)
  have haligned : (index * 4096).toNat % 4096 = 0 := by
    rw [BitVec.toNat_mul]
    change index.toNat * 4096 % 2 ^ 64 % 4096 = 0
    omega
  refine ⟨haligned, by rwa [hpage], ?_, lock_pageBitmap _ _, fun page hle => ?_⟩
  · rw [get_eq_bitAt hsize (by omega)] at hclear
    rw [hpage, PageAllocator.Marked, hclear]
    simp
  · exact marked_lock (s := { s with pageI := index }) hsize hle

end RedX.PageAllocation
