import Mathlib.Data.Finset.Card
import RedX.Core.PartialRun
import RedX.Memory.ReadMap

/-!
# Passes over pages

Every call of the allocator is a pass: a list of addresses whose pages are all
marked, or all unmarked, for one counter.  A pass flips the bits of the pages that
are not yet as it leaves them, and `run_flips` says what that does to the
marked pages and to the counters, however often an address occurs in the list.
-/

namespace RedX.PagePass

open RedX.MachineWord
open RedX.ByteMemory
open RedX.CountedLoop
open RedX.PartialRun
open RedX.PageAllocation
open RedX.MemoryMap
open RedX.ReadMap

structure Pass where
  sets : Bool
  counter : Counter
  addrs : List Word64

/-- One step of a pass. -/
def touch (s : PageAllocator) (sets : Bool) (counter : Counter) (addr : Word64) :
    PageAllocator :=
  if sets then s.mark counter addr else s.unmark counter addr

def Pass.run (pass : Pass) (s : PageAllocator) : PageAllocator :=
  pass.addrs.foldl (fun s addr => touch s pass.sets pass.counter addr) s

/-- The counter that a pass changes besides `freeMem`. -/
def total (s : PageAllocator) : Counter → Word64
  | .used => s.usedMem
  | .reserved => s.reservedMem

/-- The bytes of a number of pages. -/
def pageBytes (pages : ℕ) : Word64 := BitVec.ofNat 64 (4096 * pages)

theorem pageBytes_add (left right : ℕ) :
    pageBytes (left + right) = pageBytes left + pageBytes right := by
  rw [pageBytes, Nat.mul_add, BitVec.ofNat_add]
  rfl

/-- A total that a pass raises when it sets bits and lowers when it clears them. -/
def moved (sets : Bool) (total : Word64) (pages : ℕ) : Word64 :=
  if sets then total + pageBytes pages else total - pageBytes pages

theorem moved_moved (sets : Bool) (total : Word64) (first second : ℕ) :
    moved sets (moved sets total first) second = moved sets total (first + second) := by
  cases sets with
  | true => exact (BitVec.add_assoc _ _ _).trans (congrArg _ (pageBytes_add first second).symm)
  | false =>
      change total - pageBytes first - pageBytes second = total - pageBytes (first + second)
      rw [pageBytes_add]
      bv_omega

@[simp]
theorem moved_zero (sets : Bool) (total : Word64) : moved sets total 0 = total := by
  cases sets with
  | true => exact BitVec.add_zero total
  | false => exact BitVec.sub_zero total

/-- The pages whose bit a pass changes. -/
def flipped (s : PageAllocator) (sets : Bool) (addrs : List Word64) : Finset ℕ :=
  (addrs.map pageIndex).toFinset.filter fun page =>
    page ≤ s.reach ∧ (s.Marked page ↔ sets = false)

variable {s s' : PageAllocator} {sets : Bool} {counter : Counter} {addr : Word64}
  {addrs : List Word64} {pages : Finset ℕ} {page : ℕ}

theorem mem_flipped : page ∈ flipped s sets addrs ↔
    (∃ addr ∈ addrs, pageIndex addr = page) ∧ page ≤ s.reach ∧ (s.Marked page ↔ sets = false) := by
  rw [flipped, Finset.mem_filter, List.mem_toFinset, List.mem_map]

/-- What a pass that flips `pages` does. -/
structure Flips (s : PageAllocator) (sets : Bool) (counter : Counter) (pages : Finset ℕ)
    (s' : PageAllocator) : Prop where
  pageBitmap : s'.pageBitmap = s.pageBitmap
  marked : ∀ page ≤ s.reach, s'.Marked page ↔ if page ∈ pages then sets = true else s.Marked page
  freeMem : s'.freeMem = moved (!sets) s.freeMem pages.card
  charged : total s' counter = moved sets (total s counter) pages.card
  kept : ∀ other ≠ counter, total s' other = total s other

theorem Flips.reach (hflips : Flips s sets counter pages s') : s'.reach = s.reach := by
  rw [PageAllocator.reach, hflips.pageBitmap, PageAllocator.reach]

theorem flipped_singleton (s : PageAllocator) (sets : Bool) (addr : Word64) :
    flipped s sets [addr] =
      if pageIndex addr ≤ s.reach ∧ (s.Marked (pageIndex addr) ↔ sets = false) then
        {pageIndex addr}
      else ∅ := by
  ext page
  rw [mem_flipped]
  split_ifs with hflips
  · simp only [List.mem_singleton, exists_eq_left, Finset.mem_singleton]
    constructor
    · exact fun hpage => hpage.1.symm
    · rintro rfl
      exact ⟨rfl, hflips⟩
  · simp only [List.mem_singleton, exists_eq_left, Finset.notMem_empty, iff_false]
    rintro ⟨rfl, hpage⟩
    exact hflips hpage

theorem touch_pageBitmap (s : PageAllocator) (sets : Bool) (counter : Counter) (addr : Word64) :
    (touch s sets counter addr).pageBitmap = s.pageBitmap := by
  cases sets
  · exact unmark_pageBitmap s counter addr
  · exact mark_pageBitmap s counter addr

theorem touch_of_not_flips (counter : Counter) (hkept : ¬ (pageIndex addr ≤ s.pageBitmap.limit ∧
    (s.Marked (pageIndex addr) ↔ sets = false))) : touch s sets counter addr = s := by
  cases sets with
  | true => exact (mark_eq_limit s counter addr).trans (if_neg (by simpa using hkept))
  | false => exact (unmark_eq_limit s counter addr).trans (if_neg (by simpa using hkept))

theorem touch_memory (counter : Counter) (hflips : pageIndex addr ≤ s.pageBitmap.limit ∧
    (s.Marked (pageIndex addr) ↔ sets = false)) :
    (touch s sets counter addr).memory =
      (s.pageBitmap.set s.memory (addr / 4096) sets).2 := by
  cases sets with
  | true =>
      rw [show touch s true counter addr = s.mark counter addr from rfl, mark_eq_limit,
        if_pos (by simpa using hflips), charge_memory]
  | false =>
      rw [show touch s false counter addr = s.unmark counter addr from rfl, unmark_eq_limit,
        if_pos (by simpa using hflips), discharge_memory]

/-- A touched page on a bitmap of any size. -/
theorem marked_touch_limit (s : PageAllocator) (sets : Bool) (counter : Counter) (addr : Word64)
    (hpage : page < 2 ^ 64) :
    (touch s sets counter addr).Marked page ↔
      if page = pageIndex addr ∧ page ≤ s.pageBitmap.limit then sets = true
      else s.Marked page := by
  by_cases hflips : pageIndex addr ≤ s.pageBitmap.limit ∧ (s.Marked (pageIndex addr) ↔ sets = false)
  · rw [PageAllocator.Marked, touch_memory counter hflips, touch_pageBitmap,
      PageBitmap.bitAt_set_of_le_limit (by rw [toNat_div_page]; exact hflips.1) sets hpage, toNat_div_page]
    by_cases hsame : page = pageIndex addr
    · rw [if_pos hsame, if_pos ⟨hsame, hsame ▸ hflips.1⟩]
    · rw [if_neg hsame, if_neg fun hboth => hsame hboth.1, PageAllocator.Marked]
  · rw [touch_of_not_flips counter hflips]
    by_cases hsame : page = pageIndex addr ∧ page ≤ s.pageBitmap.limit
    · obtain ⟨rfl, hlimit⟩ := hsame
      rw [if_pos ⟨rfl, hlimit⟩]
      cases sets <;> simpa [hlimit] using hflips
    · rw [if_neg hsame]

theorem marked_touch (hsize : s.pageBitmap.WellSized) (hpage : page ≤ s.reach) :
    (touch s sets counter addr).Marked page ↔
      if page ∈ flipped s sets [addr] then sets = true else s.Marked page := by
  have hmem : page ∈ flipped s sets [addr] ↔
      pageIndex addr = page ∧ (s.Marked page ↔ sets = false) := by
    simp only [mem_flipped, List.mem_singleton, exists_eq_left, hpage, true_and]
  have hbound : s.reach ≤ 2 ^ 52 := Nat.mul_le_mul_left 8 hsize
  rw [marked_touch_limit s sets counter addr (by omega), PageBitmap.limit_eq hsize]
  by_cases hsame : pageIndex addr = page
  · rw [if_pos ⟨hsame.symm, hpage⟩]
    split_ifs with hflips
    · rfl
    · have hkept : ¬ (s.Marked page ↔ sets = false) := fun hflip => hflips (hmem.mpr ⟨hsame, hflip⟩)
      cases sets <;> simpa using hkept
  · rw [if_neg fun hboth => hsame hboth.1.symm, if_neg fun hflips => hsame (hmem.mp hflips).1]

theorem touch_totals (hsize : s.pageBitmap.WellSized) (sets : Bool) (counter : Counter)
    (addr : Word64) :
    (touch s sets counter addr).freeMem = moved (!sets) s.freeMem (flipped s sets [addr]).card ∧
    total (touch s sets counter addr) counter =
      moved sets (total s counter) (flipped s sets [addr]).card ∧
    ∀ other ≠ counter, total (touch s sets counter addr) other = total s other := by
  have hpage : pageBytes 1 = 4096 := by decide
  rw [flipped_singleton]
  cases sets with
  | true =>
      rw [show touch s true counter addr = s.mark counter addr from rfl, mark_eq hsize]
      simp only [Bool.true_eq_false, iff_false]
      split_ifs
      · refine ⟨?_, ?_, fun other hother => ?_⟩
        · cases counter <;> simp [PageAllocator.charge, moved, hpage]
        · cases counter <;> simp [PageAllocator.charge, moved, hpage, total]
        · cases counter <;> cases other <;> first | exact absurd rfl hother | rfl
      · simp
  | false =>
      rw [show touch s false counter addr = s.unmark counter addr from rfl, unmark_eq hsize]
      simp only [iff_true]
      split_ifs
      · refine ⟨?_, ?_, fun other hother => ?_⟩
        · cases counter <;> simp [PageAllocator.discharge, moved, hpage]
        · cases counter <;> simp [PageAllocator.discharge, moved, hpage, total]
        · cases counter <;> cases other <;> first | exact absurd rfl hother | rfl
      · simp

theorem touch_flips (hsize : s.pageBitmap.WellSized) (sets : Bool) (counter : Counter)
    (addr : Word64) :
    Flips s sets counter (flipped s sets [addr]) (touch s sets counter addr) := by
  obtain ⟨hfree, hcharged, hkept⟩ := touch_totals hsize sets counter addr
  exact ⟨touch_pageBitmap s sets counter addr, fun page hpage => marked_touch hsize hpage, hfree,
    hcharged, hkept⟩

/-- After a first pass a page that it has flipped is as a second one leaves it. -/
theorem mem_flipped_rest {left right : List Word64}
    (hflips : Flips s sets counter (flipped s sets left) s') :
    page ∈ flipped s' sets right ↔ page ∈ flipped s sets right ∧ page ∉ flipped s sets left := by
  rw [mem_flipped, mem_flipped, hflips.reach]
  by_cases hreach : page ≤ s.reach
  · rw [hflips.marked page hreach]
    by_cases hleft : page ∈ flipped s sets left
    · simp [hleft]
    · simp [hleft, hreach]
  · simp [hreach]

/-- Two passes of one kind, one after the other, flip what they flip as one pass. -/
theorem flipped_append {left : List Word64} (right : List Word64)
    (hflips : Flips s sets counter (flipped s sets left) s') :
    flipped s sets (left ++ right) = flipped s sets left ∪ flipped s' sets right ∧
      Disjoint (flipped s sets left) (flipped s' sets right) := by
  constructor
  · ext page
    have hsplit : page ∈ flipped s sets (left ++ right) ↔
        page ∈ flipped s sets left ∨ page ∈ flipped s sets right := by
      simp only [mem_flipped, List.mem_append, or_and_right, exists_or]
    rw [Finset.mem_union, mem_flipped_rest hflips, hsplit]
    by_cases hleft : page ∈ flipped s sets left <;> simp [hleft]
  · rw [Finset.disjoint_left]
    intro page hleft hright
    exact ((mem_flipped_rest hflips).mp hright).2 hleft

theorem Flips.append {left right : List Word64} {middle : PageAllocator}
    (hfirst : Flips s sets counter (flipped s sets left) middle)
    (hrest : Flips middle sets counter (flipped middle sets right) s') :
    Flips s sets counter (flipped s sets (left ++ right)) s' := by
  obtain ⟨hunion, hdisjoint⟩ := flipped_append right hfirst
  have hcard := Finset.card_union_of_disjoint hdisjoint
  rw [hunion]
  refine ⟨hrest.pageBitmap.trans hfirst.pageBitmap, fun page hpage => ?_, ?_, ?_, ?_⟩
  · rw [hrest.marked page (by rwa [hfirst.reach]), hfirst.marked page hpage]
    simp only [Finset.mem_union]
    split_ifs <;> tauto
  · rw [hrest.freeMem, hfirst.freeMem, moved_moved, hcard]
  · rw [hrest.charged, hfirst.charged, moved_moved, hcard]
  · intro other hother
    rw [hrest.kept other hother, hfirst.kept other hother]

@[simp]
theorem flipped_nil (s : PageAllocator) (sets : Bool) : flipped s sets [] = ∅ := by
  simp [flipped]

theorem Flips.refl (s : PageAllocator) (sets : Bool) (counter : Counter) :
    Flips s sets counter (flipped s sets []) s := by
  rw [flipped_nil]
  exact ⟨rfl, fun page _ => by simp, by simp, by simp, fun _ _ => rfl⟩

theorem foldl_touch_flips (hsize : s.pageBitmap.WellSized) (sets : Bool) (counter : Counter)
    (addrs : List Word64) :
    Flips s sets counter (flipped s sets addrs)
      (addrs.foldl (fun s addr => touch s sets counter addr) s) := by
  induction addrs generalizing s with
  | nil => exact Flips.refl s sets counter
  | cons addr addrs ih =>
      have hfirst := touch_flips hsize sets counter addr
      exact hfirst.append (ih (hfirst.pageBitmap ▸ hsize))

theorem run_flips (hsize : s.pageBitmap.WellSized) (pass : Pass) :
    Flips s pass.sets pass.counter (flipped s pass.sets pass.addrs) (pass.run s) :=
  foldl_touch_flips hsize pass.sets pass.counter pass.addrs

/-! ## The calls of the allocator -/

/-- A call of one of the nine operations; `getPage found` is a call that returned `found`. -/
inductive Call
  | getPage (found : Word64)
  | lock (addr : Word64)
  | locks (addr count : Word64)
  | free (addr : Word64)
  | frees (addr count : Word64)
  | reserve (addr : Word64)
  | reserves (addr count : Word64)
  | release (addr : Word64)
  | releases (addr count : Word64)

def perform (s : PageAllocator) : Call → Option PageAllocator
  | .getPage found =>
      match s.getPage with
      | some (page, s') => if page = found then some s' else none
      | none => none
  | .lock addr => some (s.lock addr)
  | .locks addr count => some (s.locks addr count)
  | .free addr => some (s.free addr)
  | .frees addr count => some (s.frees addr count)
  | .reserve addr => some (s.reserve addr)
  | .reserves addr count => some (s.reserves addr count)
  | .release addr => some (s.release addr)
  | .releases addr count => some (s.releases addr count)

/-- The addresses of a range operation with an `int` counter. -/
def intSteps (addr count : Word64) : List Word64 :=
  (List.range (intPasses count)).map fun i => intStep addr (BitVec.ofNat 32 i)

/-- The addresses of `locks`. -/
def wideSteps (addr count : Word64) : List Word64 := (List.range count.toNat).map (wideStep addr)

def Call.pass : Call → Pass
  | .getPage found => ⟨true, .used, [found]⟩
  | .lock addr => ⟨true, .used, [addr]⟩
  | .locks addr count => ⟨true, .used, wideSteps addr count⟩
  | .free addr => ⟨false, .used, [addr]⟩
  | .frees addr count => ⟨false, .used, intSteps addr count⟩
  | .reserve addr => ⟨true, .reserved, [addr]⟩
  | .reserves addr count => ⟨true, .reserved, intSteps addr count⟩
  | .release addr => ⟨false, .reserved, [addr]⟩
  | .releases addr count => ⟨false, .reserved, intSteps addr count⟩

theorem locks_eq_run (s : PageAllocator) (addr count : Word64) :
    s.locks addr count = (Call.locks addr count).pass.run s := by
  rw [PageAllocator.locks, forLoop_eq_foldl, Pass.run, Call.pass, wideSteps, List.foldl_map]
  rfl

theorem intFor_touch_eq_run (s : PageAllocator) (sets : Bool) (counter : Counter)
    (addr count : Word64) :
    intFor count (fun i s => touch s sets counter (intStep addr i)) s =
      Pass.run ⟨sets, counter, intSteps addr count⟩ s := by
  rw [intFor_eq_forLoop, forLoop_eq_foldl, Pass.run, intSteps, List.foldl_map]

/-- Every call but `getPage` is its pass. -/
theorem perform_eq_some_run (s : PageAllocator) {call : Call}
    (hcall : ∀ found, call ≠ .getPage found) : perform s call = some (call.pass.run s) := by
  cases call with
  | getPage found => exact absurd rfl (hcall found)
  | lock addr => rfl
  | locks addr count => exact congrArg some (locks_eq_run s addr count)
  | free addr => rfl
  | frees addr count => exact congrArg some (intFor_touch_eq_run s false .used addr count)
  | reserve addr => rfl
  | reserves addr count => exact congrArg some (intFor_touch_eq_run s true .reserved addr count)
  | release addr => rfl
  | releases addr count => exact congrArg some (intFor_touch_eq_run s false .reserved addr count)

theorem perform_getPage {found : Word64} (hperform : perform s (.getPage found) = some s') :
    s.getPage = some (found, s') := by
  rw [perform] at hperform
  split at hperform
  · rename_i page granted hget
    split at hperform
    · rename_i hfound
      rw [hget, hfound, Option.some.inj hperform]
    · cases hperform
  · cases hperform

theorem perform_of_getPage {found : Word64} (hget : s.getPage = some (found, s')) :
    perform s (.getPage found) = some s' := by
  rw [perform, hget]
  exact if_pos rfl

/-- Every call is its pass; `getPage` has moved the scan position before. -/
theorem perform_eq_run {call : Call} (hperform : perform s call = some s') :
    ∃ index, s' = call.pass.run { s with pageI := index } := by
  by_cases hcall : ∃ found, call = .getPage found
  · obtain ⟨found, rfl⟩ := hcall
    obtain ⟨index, -, -, hpage, hlocked⟩ := getPage_eq_some (perform_getPage hperform)
    exact ⟨index, by rw [hlocked, ← hpage]; rfl⟩
  · rw [perform_eq_some_run s fun found heq => hcall ⟨found, heq⟩] at hperform
    exact ⟨s.pageI, (Option.some.inj hperform).symm⟩

/-- What a call does to the marked pages and the counters. -/
theorem perform_flips (hsize : s.pageBitmap.WellSized) {call : Call}
    (hperform : perform s call = some s') :
    Flips s call.pass.sets call.pass.counter (flipped s call.pass.sets call.pass.addrs) s' := by
  obtain ⟨index, rfl⟩ := perform_eq_run hperform
  have hflips := run_flips (s := { s with pageI := index }) hsize call.pass
  exact ⟨hflips.pageBitmap, hflips.marked, hflips.freeMem, by cases call <;> exact hflips.charged,
    fun other hother => by cases other <;> exact hflips.kept _ hother⟩

theorem run_pageBitmap (hsize : s.pageBitmap.WellSized) {calls : List Call}
    (hrun : run perform s calls = some s') : s'.pageBitmap = s.pageBitmap := by
  refine run_invariant (fun state => state.pageBitmap = s.pageBitmap) rfl ?_ hrun
  intro state call _ next hstate hperform
  exact (perform_flips (hstate ▸ hsize) hperform).pageBitmap.trans hstate

/-- After calls that only set bits the pages of their addresses are marked as well. -/
theorem marked_of_run (hsize : s.pageBitmap.WellSized) {calls : List Call}
    (hsets : ∀ call ∈ calls, call.pass.sets = true) (hrun : run perform s calls = some s')
    (hpage : page ≤ s.reach) :
    s'.Marked page ↔
      s.Marked page ∨ ∃ call ∈ calls, ∃ addr ∈ call.pass.addrs, pageIndex addr = page := by
  induction calls generalizing s with
  | nil =>
      cases hrun
      simp
  | cons call calls ih =>
      rw [run_cons, Option.bind_eq_some_iff] at hrun
      obtain ⟨next, hperform, hrun⟩ := hrun
      have hflips := perform_flips hsize hperform
      have hsets' := hsets call List.mem_cons_self
      rw [ih (hflips.pageBitmap ▸ hsize)
        (fun other hother => hsets other (List.mem_cons_of_mem _ hother)) hrun
        (by rwa [hflips.reach]), hflips.marked page hpage]
      simp only [List.exists_mem_cons_iff]
      by_cases hmarked : s.Marked page
      · simp [hsets', hmarked]
      · simp [mem_flipped, hsets', hmarked, hpage]

/-- The total of `getMemorySize` is not changed by any call. -/
theorem touch_memSizeBytes (s : PageAllocator) (sets : Bool) (counter : Counter) (addr : Word64) :
    (touch s sets counter addr).memSizeBytes = s.memSizeBytes := by
  rw [touch]
  split_ifs
  · rw [PageAllocator.mark]
    dsimp only
    split_ifs
    · rfl
    · cases counter <;> rfl
    · rfl
  · rw [PageAllocator.unmark]
    dsimp only
    split_ifs
    · rfl
    · cases counter <;> rfl
    · cases counter <;> rfl
    · rfl

theorem Pass.run_memSizeBytes (pass : Pass) (s : PageAllocator) :
    (pass.run s).memSizeBytes = s.memSizeBytes := by
  obtain ⟨sets, counter, addrs⟩ := pass
  induction addrs generalizing s with
  | nil => rfl
  | cons addr addrs ih => exact (ih (touch s sets counter addr)).trans (touch_memSizeBytes _ _ _ _)

theorem run_memSizeBytes {calls : List Call} (hrun : run perform s calls = some s') :
    s'.memSizeBytes = s.memSizeBytes := by
  refine run_invariant (fun state => state.memSizeBytes = s.memSizeBytes) rfl ?_ hrun
  intro state call _ next hstate hperform
  obtain ⟨index, rfl⟩ := perform_eq_run hperform
  exact (Pass.run_memSizeBytes call.pass _).trans hstate

/-! ## `readMap` as a run -/

/-- The state of `readMap` at the end of `bitmapInit`. -/
def bitmapStage (s : PageAllocator) (map : EfiMemoryMap) : Option PageAllocator :=
  let s := { s with initialized := true }
  let largestSeg := (largestSegment map).1
  let (memSize, s) := getMemorySize s map
  bitmapInit { s with freeMem := memSize } (memSize / 4096 / 8 + 1) largestSeg

/-- The calls of the last loop of `readMap`. -/
def releaseCalls (map : EfiMemoryMap) : List Call :=
  (map.filter fun desc => desc.type = 7).map fun desc => .releases desc.physAddr desc.pages

/-- The calls of `readMap` from the end of `bitmapInit` on. -/
def bootCalls (s : PageAllocator) (memSize : Word64) (map : EfiMemoryMap) : List Call :=
  .locks s.pageBitmap.buffer (s.pageBitmap.size / 4096 + 1) ::
    .reserves 0 (memSize / 4096 + 1) :: releaseCalls map

theorem run_releaseCalls (s : PageAllocator) (map : EfiMemoryMap) :
    run perform s (releaseCalls map) = some (releaseConventional s map) := by
  induction map generalizing s with
  | nil => rfl
  | cons desc map ih =>
      rw [releaseConventional, List.foldl_cons, ← releaseConventional, ← ih, releaseCalls,
        List.filter_cons]
      by_cases hconventional : desc.type = 7
      · rw [if_pos (by simpa using hconventional), if_pos hconventional]
        rfl
      · rw [if_neg (by simpa using hconventional), if_neg hconventional]
        rfl

theorem getMemorySize_initialized (s : PageAllocator) (map : EfiMemoryMap) (initialized : Bool) :
    (getMemorySize { s with initialized := initialized } map).1 = (getMemorySize s map).1 := by
  rw [getMemorySize, getMemorySize]
  split_ifs <;> rfl

theorem readMap_eq_run {map : EfiMemoryMap} (hinitialized : s.initialized = false) :
    readMap s map = (bitmapStage s map).bind fun cleared =>
      run perform cleared (bootCalls cleared (getMemorySize s map).1 map) := by
  have hsize := getMemorySize_initialized s map true
  rw [readMap, if_neg (by simp [hinitialized]), bitmapStage]
  simp only [hsize]
  rw [Option.map_eq_bind]
  congr 1
  funext cleared
  exact (run_releaseCalls _ map).symm

theorem getMemorySize_kept (s : PageAllocator) (map : EfiMemoryMap) :
    (getMemorySize s map).2.memory = s.memory ∧
      ∀ counter, total (getMemorySize s map).2 counter = total s counter := by
  rw [getMemorySize]
  split_ifs
  · exact ⟨rfl, fun _ => rfl⟩
  · exact ⟨rfl, fun counter => by cases counter <;> rfl⟩

/-- What `bitmapInit` leaves behind on a valid map. -/
structure Cleared (map : EfiMemoryMap) (s s' : PageAllocator) : Prop where
  small : bitmapBytes map < 2 ^ 32
  pageBitmap : s'.pageBitmap = ⟨BitVec.ofNat 64 (bitmapBytes map), bitmapBase map⟩
  memory : s'.memory = store s.memory (bitmapBase map) (bitmapBytes map) fun _ => 0
  totals : ∀ counter, total s' counter = total s counter

theorem Cleared.size_toNat {map : EfiMemoryMap} (hcleared : Cleared map s s') :
    s'.pageBitmap.size.toNat = bitmapBytes map := by
  have hsmall := hcleared.small
  rw [hcleared.pageBitmap, BitVec.toNat_ofNat]
  omega

theorem bitmapStage_cleared {map : EfiMemoryMap} (hvalid : Valid map)
    (hmemSize : s.memSizeBytes = 0) (hstage : bitmapStage s map = some s') :
    Cleared map s s' := by
  let started : PageAllocator := { s with initialized := true }
  have hlength := hvalid.length_le
  have hbytes : (getMemorySize started map).1.toNat = memoryPages map * 4096 :=
    getMemorySize_fresh (s := started) hmemSize (by omega)
  have hsize := bitmapSize_toNat hbytes
  have hword : (getMemorySize started map).1 / 4096 / 8 + 1 =
      BitVec.ofNat 64 (bitmapBytes map) := by
    rw [← hsize, BitVec.ofNat_toNat, BitVec.setWidth_eq]
  obtain ⟨hmemory, htotals⟩ := getMemorySize_kept started map
  have hinit : bitmapInit
      { (getMemorySize started map).2 with freeMem := (getMemorySize started map).1 }
      (BitVec.ofNat 64 (bitmapBytes map)) (bitmapBase map) = some s' := by
    rw [← hword, ← largestSegment_fst hvalid]
    exact hstage
  have hsizeNat : (BitVec.ofNat 64 (bitmapBytes map)).toNat = bitmapBytes map := by
    rw [← hword, hsize]
  obtain ⟨hsmall, rfl⟩ := bitmapInit_eq_some hinit
  rw [hsizeNat] at hsmall
  refine ⟨hsmall, ?_, ?_, fun counter => ?_⟩
  · rfl
  · rw [← hmemory, hsizeNat]
  · have hkept := htotals counter
    cases counter <;> exact hkept

/-- After `readMap` on a valid map every call of `getMemorySize` returns the sum of the
descriptor sizes. -/
theorem getMemorySize_of_readMap {map : EfiMemoryMap} (hvalid : Valid map) (hfresh : Fresh s)
    (hread : readMap s map = some s') {calls : List Call}
    {last : PageAllocator} (hrun : run perform s' calls = some last) :
    (getMemorySize last map).1.toNat = memoryPages map * 4096 := by
  have hlength := hvalid.length_le
  let started : PageAllocator := { s with initialized := true }
  have htotal : (getMemorySize started map).1.toNat = memoryPages map * 4096 :=
    getMemorySize_fresh (s := started) hfresh.2 (by omega)
  have hstatic : (getMemorySize started map).2.memSizeBytes = (getMemorySize started map).1 := by
    rw [getMemorySize]
    split_ifs <;> rfl
  rw [readMap_eq_run hfresh.1, Option.bind_eq_some_iff] at hread
  obtain ⟨cleared, hstage, hboot⟩ := hread
  obtain ⟨-, hcleared⟩ := bitmapInit_eq_some hstage
  have hlast : last.memSizeBytes = (getMemorySize started map).1 := by
    rw [run_memSizeBytes hrun, run_memSizeBytes hboot, hcleared]
    exact hstatic
  by_cases hzero : last.memSizeBytes = 0
  · exact getMemorySize_fresh hzero (by omega)
  · have hpos : last.memSizeBytes > 0 := by
      rw [gt_iff_lt, BitVec.lt_def]
      exact Nat.pos_of_ne_zero fun heq => hzero (BitVec.eq_of_toNat_eq heq)
    rw [getMemorySize, if_pos hpos, hlast, htotal]

end RedX.PagePass
