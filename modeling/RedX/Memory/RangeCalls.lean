import Mathlib.Data.Finset.Card
import RedX.Memory.PagePass

/-!
# The range operations

`locks` counts with a `uint64_t` and reaches every page of its range.  `frees`,
`reserves` and `releases` compute the byte offset of a page in an `int`, which
becomes negative after `2^19` pages: from there on they work on the pages before the
range.  Everything here holds for a bitmap of any size.
-/

namespace RedX.RangeCalls

open RedX.MachineWord
open RedX.CountedLoop
open RedX.PageBitmap
open RedX.PageAllocation
open RedX.MemoryMap
open RedX.PagePass

variable {s : PageAllocator} {sets : Bool} {counter : Counter} {addr count : Word64} {page : ℕ}

/-! ## A pass on a bitmap of any size -/

/-- The pages that a pass works on. -/
def Pass.reached (pass : Pass) : Set ℕ := {page | ∃ addr ∈ pass.addrs, page = pageIndex addr}

theorem Pass.run_pageBitmap (pass : Pass) (s : PageAllocator) :
    (pass.run s).pageBitmap = s.pageBitmap := by
  obtain ⟨sets, counter, addrs⟩ := pass
  induction addrs generalizing s with
  | nil => rfl
  | cons addr addrs ih => exact (ih (touch s sets counter addr)).trans (touch_pageBitmap _ _ _ _)

open Classical in
theorem marked_run_limit (pass : Pass) (s : PageAllocator) (hpage : page < 2 ^ 64) :
    (pass.run s).Marked page ↔
      if page ∈ Pass.reached pass ∧ page ≤ s.pageBitmap.limit then pass.sets = true
      else s.Marked page := by
  obtain ⟨sets, counter, addrs⟩ := pass
  induction addrs generalizing s with
  | nil => simp [Pass.reached, Pass.run]
  | cons addr addrs ih =>
      have hfirst := marked_touch_limit s sets counter addr hpage
      have hrest := ih (touch s sets counter addr)
      rw [touch_pageBitmap, hfirst] at hrest
      have hmem : page ∈ Pass.reached ⟨sets, counter, addr :: addrs⟩ ↔
          page = pageIndex addr ∨ page ∈ Pass.reached ⟨sets, counter, addrs⟩ := by
        simp [Pass.reached]
      rw [hmem]
      refine hrest.trans ?_
      by_cases hlimit : page ≤ s.pageBitmap.limit
      · by_cases hlater : page ∈ Pass.reached ⟨sets, counter, addrs⟩
        · simp [hlimit, hlater]
        · simp [hlimit, hlater]
      · simp [hlimit]

/-! ## The counters -/

/-- The pages of the address space whose bit is set. -/
def held (s : PageAllocator) : Finset ℕ :=
  (Finset.range (2 ^ 52)).filter fun page => page ≤ s.pageBitmap.limit ∧ s.Marked page

theorem mem_held : page ∈ held s ↔ page < 2 ^ 52 ∧ page ≤ s.pageBitmap.limit ∧ s.Marked page := by
  rw [held, Finset.mem_filter, Finset.mem_range]

/-- Marked bytes and free bytes add up to the same all the time, and so do marked bytes and
used bytes. -/
structure Balanced (s s' : PageAllocator) : Prop where
  free : s'.freeMem + pageBytes (held s').card = s.freeMem + pageBytes (held s).card
  used : s'.usedMem - pageBytes (held s').card = s.usedMem - pageBytes (held s).card

theorem Balanced.trans {s' s'' : PageAllocator} (hfirst : Balanced s s')
    (hsecond : Balanced s' s'') : Balanced s s'' :=
  ⟨hsecond.free.trans hfirst.free, hsecond.used.trans hfirst.used⟩

theorem held_touch_of_flips (hflips : pageIndex addr ≤ s.pageBitmap.limit)
    (hbefore : s.Marked (pageIndex addr) ↔ sets = false) :
    (sets = true → (held (touch s sets counter addr)).card = (held s).card + 1) ∧
      (sets = false → (held (touch s sets counter addr)).card + 1 = (held s).card) := by
  have hindex := pageIndex_lt addr
  have hmarked : ∀ page < 2 ^ 52, (touch s sets counter addr).Marked page ↔
      if page = pageIndex addr ∧ page ≤ s.pageBitmap.limit then sets = true else s.Marked page :=
    fun page hpage => marked_touch_limit s sets counter addr (by omega)
  constructor
  · rintro rfl
    have hnew : pageIndex addr ∉ held s := by
      intro hmem
      simpa using hbefore.mp (mem_held.mp hmem).2.2
    have hinsert : held (touch s true counter addr) = insert (pageIndex addr) (held s) := by
      ext page
      rw [mem_held, Finset.mem_insert, mem_held, touch_pageBitmap]
      by_cases hsame : page = pageIndex addr
      · simpa [hsame, hmarked _ hindex, hflips] using hindex
      · simp only [hsame, false_or]
        exact and_congr_right fun hpage => by simp [hmarked page hpage, hsame]
    rw [hinsert, Finset.card_insert_of_notMem hnew]
  · rintro rfl
    have hold : pageIndex addr ∈ held s := mem_held.mpr ⟨hindex, hflips, hbefore.mpr rfl⟩
    have herase : held (touch s false counter addr) = (held s).erase (pageIndex addr) := by
      ext page
      rw [mem_held, Finset.mem_erase, mem_held, touch_pageBitmap]
      by_cases hsame : page = pageIndex addr
      · simp [hsame, hmarked _ hindex, hflips]
      · simp only [hsame, ne_eq, not_false_eq_true, true_and]
        exact and_congr_right fun hpage => by simp [hmarked page hpage, hsame]
    rw [herase, Finset.card_erase_add_one hold]

theorem balanced_touch (s : PageAllocator) (sets : Bool) (addr : Word64) :
    Balanced s (touch s sets .used addr) := by
  have hpage : pageBytes 1 = 4096 := by decide
  by_cases hflips : pageIndex addr ≤ s.pageBitmap.limit ∧ (s.Marked (pageIndex addr) ↔ sets = false)
  · obtain ⟨hset, hclear⟩ := @held_touch_of_flips s sets .used addr hflips.1 hflips.2
    cases sets with
    | true =>
        have hcard := hset rfl
        rw [show touch s true .used addr = s.mark .used addr from rfl, mark_eq_limit,
          if_pos (by simpa using hflips)] at hcard ⊢
        constructor
        · rw [hcard, pageBytes_add, hpage]
          change s.freeMem - 4096 + (_ + 4096) = _
          bv_omega
        · rw [hcard, pageBytes_add, hpage]
          change s.usedMem + 4096 - (_ + 4096) = _
          bv_omega
    | false =>
        have hcard := hclear rfl
        rw [show touch s false .used addr = s.unmark .used addr from rfl, unmark_eq_limit,
          if_pos (by simpa using hflips)] at hcard ⊢
        constructor
        · rw [← hcard, pageBytes_add, hpage]
          change s.freeMem + 4096 + _ = _
          bv_omega
        · rw [← hcard, pageBytes_add, hpage]
          change s.usedMem - 4096 - _ = _
          bv_omega
  · rw [touch_of_not_flips .used hflips]
    exact ⟨rfl, rfl⟩

theorem balanced_run (s : PageAllocator) (sets : Bool) (addrs : List Word64) :
    Balanced s (Pass.run ⟨sets, .used, addrs⟩ s) := by
  induction addrs generalizing s with
  | nil => exact ⟨rfl, rfl⟩
  | cons addr addrs ih => exact (balanced_touch s sets addr).trans (ih (touch s sets .used addr))

/-- Calls that charge `usedMem` and leave the marked pages as they were leave the counters
as they were. -/
theorem Balanced.restored {s' : PageAllocator} (hbalanced : Balanced s s')
    (hbitmap : s'.pageBitmap = s.pageBitmap)
    (hmarked : ∀ page < 2 ^ 64, s'.Marked page ↔ s.Marked page) :
    s'.freeMem = s.freeMem ∧ s'.usedMem = s.usedMem := by
  have hheld : held s' = held s := by
    ext page
    rw [mem_held, mem_held, hbitmap]
    exact and_congr_right fun hpage => by rw [hmarked page (by omega)]
  obtain ⟨hfree, hused⟩ := hbalanced
  rw [hheld] at hfree hused
  constructor <;> bv_omega

/-! ## The pages that the loops reach -/

/-- The range of a call: `count` pages from the one of `addr` on. -/
def pagesOf (addr count : Word64) : Set ℕ :=
  {page | pageIndex addr ≤ page ∧ page < pageIndex addr + count.toNat}

/-- The pages that `locks` reaches: page numbers are below `2^52`. -/
def wideReach (addr count : Word64) : Set ℕ :=
  {page | ∃ i < count.toNat, page = (pageIndex addr + i) % 2 ^ 52}

/-- The pages that a loop with an `int` counter reaches: `2^19` pages forward, then the
`2^19` pages before the first one. -/
def intReach (addr count : Word64) : Set ℕ :=
  {page | (∃ i < 2 ^ 19, i < count.toNat ∧ page = (pageIndex addr + i) % 2 ^ 52) ∨
    ∃ k < 2 ^ 19, 2 ^ 19 + k < count.toNat ∧
      page = (pageIndex addr + (2 ^ 52 - 2 ^ 19) + k) % 2 ^ 52}

theorem pageIndex_wideStep_mod (addr : Word64) (i : ℕ) :
    pageIndex (wideStep addr i) = (pageIndex addr + i) % 2 ^ 52 := by
  rw [wideStep, pageIndex, pageIndex, BitVec.toNat_add, BitVec.toNat_mul, BitVec.toNat_ofNat]
  change (addr.toNat + i % 2 ^ 64 * 4096 % 2 ^ 64) % 2 ^ 64 / 4096 = _
  omega

theorem reached_wideSteps (sets : Bool) (counter : Counter) (addr count : Word64) :
    Pass.reached ⟨sets, counter, wideSteps addr count⟩ = wideReach addr count := by
  ext page
  simp only [Pass.reached, wideSteps, wideReach, Set.mem_ofPred_eq, List.mem_map, List.mem_range,
    exists_exists_and_eq_and, pageIndex_wideStep_mod]

theorem reached_intSteps (sets : Bool) (counter : Counter) (addr count : Word64) :
    Pass.reached ⟨sets, counter, intSteps addr count⟩ = intReach addr count := by
  have hpasses : intPasses count ≤ count.toNat ∧
      (count.toNat ≤ intPasses count ∨ 2 ^ 20 ≤ intPasses count) := by
    unfold intPasses
    split_ifs <;> omega
  ext page
  simp only [Pass.reached, intSteps, intReach, Set.mem_ofPred_eq, List.mem_map, List.mem_range,
    exists_exists_and_eq_and, pageIndex_intStep]
  constructor
  · rintro ⟨i, hi, rfl⟩
    split_ifs with hforward
    · exact .inl ⟨i % 2 ^ 20, hforward, by omega, rfl⟩
    · exact .inr ⟨i % 2 ^ 20 - 2 ^ 19, by omega, by omega, by omega⟩
  · rintro (⟨i, hnear, hi, rfl⟩ | ⟨k, hk, hcount, rfl⟩)
    · refine ⟨i, by omega, ?_⟩
      rw [if_pos (by omega)]
      omega
    · refine ⟨2 ^ 19 + k, by omega, ?_⟩
      rw [if_neg (by omega)]
      omega

/-- Up to 2 GiB the loops with an `int` counter reach what `locks` reaches. -/
theorem intReach_eq_wideReach (hcount : count.toNat ≤ 2 ^ 19) :
    intReach addr count = wideReach addr count := by
  ext page
  constructor
  · rintro (⟨i, -, hi, hpage⟩ | ⟨k, -, hk, -⟩)
    · exact ⟨i, hi, hpage⟩
    · omega
  · rintro ⟨i, hi, hpage⟩
    exact .inl ⟨i, by omega, hi, hpage⟩

theorem wideReach_eq_pagesOf (hspace : pageIndex addr + count.toNat ≤ 2 ^ 52) :
    wideReach addr count = pagesOf addr count := by
  ext page
  constructor
  · rintro ⟨i, hi, rfl⟩
    rw [Nat.mod_eq_of_lt (by omega)]
    exact ⟨by omega, by omega⟩
  · rintro ⟨hfirst, hlast⟩
    exact ⟨page - pageIndex addr, by omega, by omega⟩

/-- After 2 GiB an `int` counter never comes to the next page of the range. -/
theorem not_mem_intReach (addr count : Word64) :
    pageIndex addr + 2 ^ 19 ∉ intReach addr count := by
  rintro (⟨i, hi, -, heq⟩ | ⟨k, hk, -, heq⟩) <;> omega

/-! ## Exact ranges -/

/-- `s'` is `s` with the pages of `range` marked, or unmarked, and no other bit changed. -/
structure Exactly (sets : Bool) (range : Set ℕ) (s s' : PageAllocator) : Prop where
  inside : ∀ page ∈ range, s'.Marked page ↔ sets = true
  outside : ∀ page < 2 ^ 64, page ∉ range → (s'.Marked page ↔ s.Marked page)

/-- Where the pages reached are not those of the range, the bits are as asked for anyway. -/
def SettledApart (s : PageAllocator) (sets : Bool) (reached range : Set ℕ) : Prop :=
  ∀ page ≤ s.pageBitmap.limit, (page ∈ reached ↔ page ∈ range) ∨ (s.Marked page ↔ sets = true)

theorem settledApart_of_eq {reached range : Set ℕ} (heq : reached = range) :
    SettledApart s sets reached range :=
  fun _ _ => .inl (heq ▸ Iff.rfl)

theorem exactly_run_iff (pass : Pass) {range : Set ℕ}
    (hrange : ∀ page ∈ range, page ≤ s.pageBitmap.limit) :
    Exactly pass.sets range s (pass.run s) ↔
      SettledApart s pass.sets (Pass.reached pass) range := by
  classical
  have hlimit := limit_lt s.pageBitmap
  constructor
  · rintro ⟨hinside, houtside⟩ page hpage
    have hmarked := marked_run_limit pass s (show page < 2 ^ 64 by omega)
    by_cases hreached : page ∈ Pass.reached pass
    · rw [if_pos ⟨hreached, hpage⟩] at hmarked
      by_cases hmem : page ∈ range
      · exact .inl (iff_of_true hreached hmem)
      · exact .inr ((houtside page (by omega) hmem).symm.trans hmarked)
    · rw [if_neg fun hboth => hreached hboth.1] at hmarked
      by_cases hmem : page ∈ range
      · exact .inr (hmarked.symm.trans (hinside page hmem))
      · exact .inl (iff_of_false hreached hmem)
  · intro hsettled
    refine ⟨fun page hmem => ?_, fun page hpage hmem => ?_⟩
    · have htracked := hrange page hmem
      have hmarked := marked_run_limit pass s (show page < 2 ^ 64 by omega)
      rw [hmarked]
      split_ifs with hreached
      · rfl
      · rcases hsettled page htracked with hsame | hvalue
        · exact absurd ⟨hsame.mpr hmem, htracked⟩ hreached
        · exact hvalue
    · rw [marked_run_limit pass s hpage]
      split_ifs with hreached
      · rcases hsettled page hreached.2 with hsame | hvalue
        · exact absurd (hsame.mp hreached.1) hmem
        · exact hvalue.symm
      · rfl

/-- `frees` after `locks` gives back the bitmap and both counters. -/
structure RoundTrips (s : PageAllocator) (addr count : Word64) : Prop where
  marked : ∀ page < 2 ^ 64, ((s.locks addr count).frees addr count).Marked page ↔ s.Marked page
  freeMem : ((s.locks addr count).frees addr count).freeMem = s.freeMem
  usedMem : ((s.locks addr count).frees addr count).usedMem = s.usedMem

/-- Every page that `locks` marks is unmarked by `frees`, and no other one is. -/
def FreedAgain (s : PageAllocator) (addr count : Word64) : Prop :=
  ∀ page ≤ s.pageBitmap.limit,
    (page ∈ wideReach addr count → page ∈ intReach addr count ∨ s.Marked page) ∧
      (page ∈ intReach addr count → ¬ s.Marked page)

theorem locks_frees_eq (s : PageAllocator) (addr count : Word64) :
    (s.locks addr count).frees addr count =
      Pass.run ⟨false, .used, intSteps addr count⟩
        (Pass.run ⟨true, .used, wideSteps addr count⟩ s) := by
  rw [locks_eq_run]
  exact intFor_touch_eq_run _ false .used addr count

theorem locks_frees_iff (s : PageAllocator) (addr count : Word64) :
    RoundTrips s addr count ↔ FreedAgain s addr count := by
  classical
  have hlimit := limit_lt s.pageBitmap
  have hmarked : ∀ page < 2 ^ 64, ((s.locks addr count).frees addr count).Marked page ↔
      if page ∈ intReach addr count ∧ page ≤ s.pageBitmap.limit then false = true
      else if page ∈ wideReach addr count ∧ page ≤ s.pageBitmap.limit then true = true
      else s.Marked page := by
    intro page hpage
    rw [locks_frees_eq, marked_run_limit _ _ hpage, marked_run_limit _ _ hpage,
      Pass.run_pageBitmap, reached_intSteps, reached_wideSteps]
  constructor
  · intro hround page hpage
    have hback := (hmarked page (by omega)).symm.trans (hround.marked page (by omega))
    constructor
    · intro hlocked
      by_cases hfreed : page ∈ intReach addr count
      · exact .inl hfreed
      · rw [if_neg fun hboth => hfreed hboth.1, if_pos ⟨hlocked, hpage⟩] at hback
        exact .inr (hback.mp rfl)
    · intro hfreed hset
      rw [if_pos ⟨hfreed, hpage⟩] at hback
      exact Bool.false_ne_true (hback.mpr hset)
  · intro hagain
    have hsame : ∀ page < 2 ^ 64,
        ((s.locks addr count).frees addr count).Marked page ↔ s.Marked page := by
      intro page hpage
      rw [hmarked page hpage]
      split_ifs with hfreed hlocked
      · simpa using (hagain page hfreed.2).2 hfreed.1
      · rcases (hagain page hlocked.2).1 hlocked.1 with hlater | hset
        · exact absurd ⟨hlater, hlocked.2⟩ hfreed
        · simpa using hset
      · rfl
    have hbalanced : Balanced s ((s.locks addr count).frees addr count) := by
      rw [locks_frees_eq]
      exact (balanced_run s true _).trans (balanced_run _ false _)
    have hbitmap : ((s.locks addr count).frees addr count).pageBitmap = s.pageBitmap := by
      rw [locks_frees_eq, Pass.run_pageBitmap, Pass.run_pageBitmap]
    obtain ⟨hfree, hused⟩ := hbalanced.restored hbitmap hsame
    exact ⟨hsame, hfree, hused⟩

/-- Which calls on a range inside the bitmap touch exactly that range. -/
theorem range_calls_exact_iff (hrange : pageIndex addr + count.toNat ≤ s.pageBitmap.limit) :
    (Exactly true (pagesOf addr count) s (s.locks addr count) ↔
      SettledApart s true (wideReach addr count) (pagesOf addr count)) ∧
    (Exactly true (pagesOf addr count) s (s.reserves addr count) ↔
      SettledApart s true (intReach addr count) (pagesOf addr count)) ∧
    (Exactly false (pagesOf addr count) s (s.frees addr count) ↔
      SettledApart s false (intReach addr count) (pagesOf addr count)) ∧
    (Exactly false (pagesOf addr count) s (s.releases addr count) ↔
      SettledApart s false (intReach addr count) (pagesOf addr count)) ∧
    (RoundTrips s addr count ↔ FreedAgain s addr count) := by
  have htracked : ∀ page ∈ pagesOf addr count, page ≤ s.pageBitmap.limit :=
    fun page hmem => hmem.2.le.trans hrange
  have hint : ∀ sets counter, Exactly sets (pagesOf addr count) s
      (Pass.run ⟨sets, counter, intSteps addr count⟩ s) ↔
        SettledApart s sets (intReach addr count) (pagesOf addr count) := by
    intro sets counter
    rw [← reached_intSteps sets counter addr count]
    exact exactly_run_iff ⟨sets, counter, intSteps addr count⟩ htracked
  refine ⟨?_, ?_, ?_, ?_, locks_frees_iff s addr count⟩
  · rw [locks_eq_run, ← reached_wideSteps true .used addr count]
    exact exactly_run_iff ⟨true, .used, wideSteps addr count⟩ htracked
  · rw [← hint true .reserved, ← intFor_touch_eq_run]
    rfl
  · rw [← hint false .used, ← intFor_touch_eq_run]
    rfl
  · rw [← hint false .reserved, ← intFor_touch_eq_run]
    rfl

/-- Pages 1 and 2 of a bitmap of one byte. -/
theorem range_calls_exact_two :
    let s : PageAllocator := ⟨fun _ => 0, ⟨1, 0x100⟩, 0, 0, 0, true, 0, 0⟩
    Exactly true (pagesOf 0x1000 2) s (s.reserves 0x1000 2) := by
  intro s
  have hspace : pageIndex 0x1000 + (2 : Word64).toNat ≤ 2 ^ 52 := by decide
  have hreach : intReach 0x1000 2 = pagesOf 0x1000 2 :=
    (intReach_eq_wideReach (by decide)).trans (wideReach_eq_pagesOf hspace)
  exact (range_calls_exact_iff (by decide)).2.1.mpr (settledApart_of_eq hreach)

/-- On a bitmap of ones `frees` leaves page `2^19` of `2^19 + 1` pages marked. -/
theorem last_page_not_freed :
    let s : PageAllocator := ⟨fun _ => 0xff, ⟨0x10001, 0⟩, 0, 0, 0, true, 0, 0⟩
    pageIndex 0 + (0x80001 : Word64).toNat ≤ s.pageBitmap.limit ∧
      ¬ Exactly false (pagesOf 0 0x80001) s (s.frees 0 0x80001) := by
  intro s
  have hlast : s.Marked (2 ^ 19) := by decide
  have hmem : 2 ^ 19 ∈ pagesOf 0 0x80001 := by
    rw [pagesOf, Set.mem_ofPred_eq]
    decide
  have htracked : ∀ page ∈ pagesOf 0 0x80001, page ≤ s.pageBitmap.limit := by
    intro page hpage
    have hlimit : s.pageBitmap.limit = 0x80008 := by decide
    have hend : page < 0 + 0x80001 := hpage.2
    omega
  refine ⟨by decide, fun hexact => ?_⟩
  rw [show s.frees 0 0x80001 = Pass.run ⟨false, .used, intSteps 0 0x80001⟩ s from
    intFor_touch_eq_run s false .used 0 0x80001] at hexact
  have hsettled := (exactly_run_iff ⟨false, .used, intSteps 0 0x80001⟩ htracked).mp hexact
  rw [reached_intSteps] at hsettled
  rcases hsettled (2 ^ 19) (htracked _ hmem) with hsame | hvalue
  · exact not_mem_intReach 0 0x80001 (hsame.mpr hmem)
  · exact Bool.false_ne_true (hvalue.mp hlast)

end RedX.RangeCalls
