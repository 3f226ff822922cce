import RedX.Memory.FreePages
import RedX.Paging.Translation

/-!
# Pools of pages

`getPool` maps one page more than fills the size, each to a page that `getPage` grants,
and steps over one page at the end.  `Backed` says what a stretch of mapped pages got;
stretches that do not meet compose, and a run of calls is one stretch for each pool with an
unmapped page after it.
-/

namespace RedX.PagePool

open RedX.MachineWord
open RedX.ByteMemory
open RedX.RadixTree
open RedX.PageBitmap
open RedX.PageAllocation
open RedX.FreePages
open RedX.TableEntry
open RedX.PageTables
open RedX.PageTree
open RedX.MapRun
open RedX.Translation

/-- The pages that `getPool` maps for a size. -/
def poolPages (size : Word64) : ℕ := size.toNat / 4096 + 1

/-- Calls of `getPool` one after the other: what they return, and the state at the end. -/
def getPools (console : Console) (man : PTableMan) :
    List Word64 → Kernel → Option (List Word64 × Kernel)
  | [], s => some ([], s)
  | size :: sizes, s =>
      (man.getPool console size s).bind fun pool =>
        (getPools console man sizes pool.2).map fun pools => (pool.1 :: pools.1, pools.2)

/-- The pages that the calls map from page `first` on. -/
def pagesOf : ℕ → List Word64 → List ℕ
  | _, [] => []
  | first, size :: sizes =>
      List.range' first (poolPages size) ++ pagesOf (first + poolPages size + 1) sizes

/-- The page at which `VAI` stands after the calls. -/
def poolsEnd : ℕ → List Word64 → ℕ
  | first, [] => first
  | first, size :: sizes => poolsEnd (first + poolPages size + 1) sizes

def insertPages (placement : Placement 512) (pages : List ℕ) : Placement 512 :=
  pages.foldl insertPage placement

/-- The address lies in a page of one of the pools, given by their starts and sizes. -/
def InPools (pools : List (Word64 × Word64)) (addr : Word64) : Prop :=
  ∃ pool ∈ pools, ∃ i < 4096 * poolPages pool.2, addr = pool.1 + BitVec.ofNat 64 i

/-- The pools are backed by different locked pages, they do not meet, and between any two
of them lies a page that is not mapped. -/
structure Served (man : PTableMan) (s : Kernel) (pools : List (Word64 × Word64)) : Prop where
  backed : ∀ addr, InPools pools addr → ∃ frame,
    Translates s.memory man.dirAddr addr frame ∧ s.allocator.Marked (pageIndex frame)
  distinct : ∀ addr other frame, InPools pools addr → InPools pools other →
    Translates s.memory man.dirAddr addr frame → Translates s.memory man.dirAddr other frame →
    pageIndex addr = pageIndex other
  covers : ∀ pool ∈ pools, ∀ i < pool.2.toNat, InPools pools (pool.1 + BitVec.ofNat 64 i)
  guarded : pools.Pairwise fun earlier later => ∃ page,
    earlier.1.toNat + earlier.2.toNat ≤ 4096 * page ∧ 4096 * (page + 1) ≤ later.1.toNat ∧
    ∀ addr, pageIndex addr = page → Unmapped s.memory man.dirAddr addr

/-- The page tables hold a tree whose root was clear, the bitmap of the allocator lies
outside the directory, and no free page is behind the scan position. -/
structure Ready (man : PTableMan) (placement : Placement 512) (leaf : ℕ → Option Word64)
    (s : Kernel) : Prop where
  represents : Represents man (fun _ => 0) placement leaf s
  sized : s.allocator.pageBitmap.WellSized
  apart : Disjoint (region man)
    (bitmapStore s.allocator.pageBitmap s.allocator.pageBitmap.size.toNat)
  behind : ScanBehind s.allocator

/-- The pages were mapped to different frames below `2^40` that were not marked before and
are marked after; other pages keep their leaves. -/
structure Backed (before : PageAllocator) (leaf : ℕ → Option Word64) (after : PageAllocator)
    (leaf' : ℕ → Option Word64) (pages : List ℕ) : Prop where
  mapped : ∀ page ∈ pages, ∃ frame : Word64, leaf' page = some frame ∧
    frame.toNat % 4096 = 0 ∧ frame.toNat < 2 ^ 40 ∧ pageIndex frame < before.reach ∧
    ¬ before.Marked (pageIndex frame) ∧ after.Marked (pageIndex frame)
  distinct : ∀ page ∈ pages, ∀ other ∈ pages, leaf' page = leaf' other → page = other
  kept : ∀ page ∉ pages, leaf' page = leaf page
  marked : ∀ page < before.reach, before.Marked page → after.Marked page
  pageBitmap : after.pageBitmap = before.pageBitmap

/-- The bytes that `getPool` writes: page tables and the page bitmap. -/
def poolWrites (man : PTableMan) (bitmap : Bitmap) : Set Word64 :=
  region man ∪ bitmapStore bitmap bitmap.size.toNat

variable {man : PTableMan} {console : Console} {placement : Placement 512}
  {leaf leaf' leaf'' : ℕ → Option Word64} {s s' : Kernel} {a b c : PageAllocator}
  {pages more : List ℕ} {page first : ℕ}

theorem count_le_insertPages (placement : Placement 512) (pages : List ℕ) :
    placement.count ≤ (insertPages placement pages).count := by
  induction pages generalizing placement with
  | nil => exact le_rfl
  | cons page pages ih => exact (count_le_insertPage placement page).trans (ih _)

theorem insertPages_append (placement : Placement 512) (pages more : List ℕ) :
    insertPages placement (pages ++ more) = insertPages (insertPages placement pages) more :=
  List.foldl_append

theorem Backed.refl (a : PageAllocator) (leaf : ℕ → Option Word64) : Backed a leaf a leaf [] where
  mapped := by simp
  distinct := by simp
  kept := fun _ _ => rfl
  marked := fun _ _ hmarked => hmarked
  pageBitmap := rfl

/-- Frames of a later stretch were not marked when it began, those of an earlier one were. -/
theorem Backed.trans (hfirst : Backed a leaf b leaf' pages) (hsecond : Backed b leaf' c leaf'' more)
    (hdisjoint : ∀ page ∈ pages, page ∉ more) : Backed a leaf c leaf'' (pages ++ more) := by
  have hreach : b.reach = a.reach := by
    rw [PageAllocator.reach, hfirst.pageBitmap, PageAllocator.reach]
  have hkept : ∀ page ∈ pages, leaf'' page = leaf' page := fun page hpage =>
    hsecond.kept page (hdisjoint page hpage)
  have hcross : ∀ page ∈ pages, ∀ other ∈ more, leaf'' page ≠ leaf'' other := by
    intro page hpage other hother heq
    obtain ⟨frame, hleaf, -, -, -, -, hset⟩ := hfirst.mapped page hpage
    obtain ⟨frame', hleaf', -, -, -, hclear, -⟩ := hsecond.mapped other hother
    rw [hkept page hpage, hleaf, hleaf', Option.some.injEq] at heq
    exact hclear (heq ▸ hset)
  constructor
  · intro page hpage
    rcases List.mem_append.mp hpage with hpage | hpage
    · obtain ⟨frame, hleaf, haligned, hlow, hin, hclear, hset⟩ := hfirst.mapped page hpage
      exact ⟨frame, (hkept page hpage).trans hleaf, haligned, hlow, hin, hclear,
        hsecond.marked _ (hreach.symm ▸ hin) hset⟩
    · obtain ⟨frame, hleaf, haligned, hlow, hin, hclear, hset⟩ := hsecond.mapped page hpage
      rw [hreach] at hin
      exact ⟨frame, hleaf, haligned, hlow, hin, fun hmarked =>
        hclear (hfirst.marked _ hin hmarked), hset⟩
  · intro page hpage other hother heq
    rcases List.mem_append.mp hpage with hpage | hpage <;>
      rcases List.mem_append.mp hother with hother | hother
    · rw [hkept page hpage, hkept other hother] at heq
      exact hfirst.distinct page hpage other hother heq
    · exact absurd heq (hcross page hpage other hother)
    · exact absurd heq.symm (hcross other hother page hpage)
    · exact hsecond.distinct page hpage other hother heq
  · intro page hpage
    rw [List.mem_append, not_or] at hpage
    rw [hsecond.kept page hpage.2, hfirst.kept page hpage.1]
  · intro page hpage hmarked
    exact hsecond.marked page (hreach.symm ▸ hpage) (hfirst.marked page hpage hmarked)
  · exact hsecond.pageBitmap.trans hfirst.pageBitmap

/-! ## One page -/

/-- A frame that has just been granted is locked, so `map` makes no report about it. -/
theorem checkLocked_granted {frame : Word64} (hsize : a.pageBitmap.WellSized)
    (hgranted : Granted a frame b) (virtualMemory : Word64) (hs : s.allocator = b) :
    console.checkLocked virtualMemory frame s = s := by
  apply checkLocked_of_get
  have hindex : (pageAlign frame / 0x1000).toNat = pageIndex frame := by
    rw [BitVec.toNat_udiv, toNat_pageAlign]
    exact Nat.mul_div_cancel _ (by decide)
  have hreach : pageIndex frame ≤ a.reach := hgranted.tracked.le
  have hmarked := (hgranted.marked (pageIndex frame) hreach).mpr (Or.inr rfl)
  rw [Kernel.memory, hs, get_eq_bitAt (hgranted.pageBitmap ▸ hsize)
    (by rw [hindex, hgranted.pageBitmap]; exact hreach), hindex]
  exact hmarked

/-- Mapping a frame that has just been granted sets its leaf, writes in the directory only
and leaves the marked pages as `getPage` has left them. -/
theorem map_granted (console : Console) (hready : Ready man placement leaf s) {frame : Word64}
    {allocator : PageAllocator} (hpos : 0 < s.allocator.pageBitmap.size.toNat)
    (hget : s.allocator.getPage = some (frame, allocator))
    (hroom : Room man (insertPage placement (virtualPage s.VAI)).count) :
    let s' := man.map console s.VAI frame { s with allocator := allocator }
    Represents man (fun _ => 0) (insertPage placement (virtualPage s.VAI))
        (Function.update leaf (virtualPage s.VAI) (some frame)) s' ∧
      AgreeOutside (region man) allocator.memory s'.memory ∧
      ∀ page < s.allocator.reach,
        s'.allocator.Marked page ↔ s.allocator.Marked page ∨ page = pageIndex frame := by
  intro s'
  obtain ⟨hrep, hsize, hapart, -⟩ := hready
  let granted : Kernel := { s with allocator := allocator }
  have hgranted := getPage_granted hsize hpos hget
  have hbitmap : allocator.pageBitmap = s.allocator.pageBitmap := hgranted.pageBitmap
  have hrepGranted : Represents man (fun _ => 0) placement leaf granted :=
    represents_of_agreeOutside hrep (hroom.mono (count_le_insertPage _ _)) hapart
      (getPage_agreeOutside hsize hpos hget) rfl
  have hquiet : console.checkLocked s.VAI frame granted = granted :=
    checkLocked_granted hsize hgranted s.VAI rfl
  obtain ⟨hrep', hframe, -⟩ := map_represents_of_reported (by rw [hquiet]; exact hrepGranted)
    (fun _ _ => BitVec.getLsbD_zero) hroom
  rw [hquiet] at hframe
  refine ⟨hrep', hframe.mono hroom.tables_subset, fun page hpage => ?_⟩
  have hkept : s'.allocator.Marked page ↔ allocator.Marked page := by
    rw [(map_rewritten console man s.VAI frame granted).allocator]
    refine marked_of_agreeOutside (hbitmap ▸ hsize) (hframe.mono hroom.tables_subset) ?_ ?_
    · rw [hbitmap]
      exact hapart
    · rwa [PageAllocator.reach, hbitmap]
  rw [hkept, hgranted.marked page hpage.le]

/-- One pass of the loop of `getPool`. -/
theorem pass_backed (console : Console) (hready : Ready man placement leaf s)
    (hfree : (freePages s.allocator (2 ^ 28)).Nonempty)
    (hroom : Room man (insertPage placement (virtualPage s.VAI)).count) :
    ∃ frame allocator, s.allocator.getPage = some (frame, allocator) ∧
      let s' := man.map console s.VAI frame { s with allocator := allocator }
      let leaf' := Function.update leaf (virtualPage s.VAI) (some frame)
      Ready man (insertPage placement (virtualPage s.VAI)) leaf' s' ∧
      Backed s.allocator leaf s'.allocator leaf' [virtualPage s.VAI] ∧
      s'.VAI = s.VAI ∧
      (freePages s.allocator (2 ^ 28)).card =
        (freePages s'.allocator (2 ^ 28)).card + 1 ∧
      AgreeOutside (poolWrites man s.allocator.pageBitmap) s.memory s'.memory := by
  have hsize := hready.sized
  obtain ⟨page, hpage⟩ := hfree
  have hpos := (mem_freePages.mp hpage).2.pos
  obtain ⟨frame, allocator, hget⟩ := getPage_of_free hsize (mem_freePages.mp hpage).2
  have hgranted := getPage_granted hsize hpos hget
  have hfound := found_mem_freePages hsize hready.behind hget ⟨page, hpage⟩
  have hlow : pageIndex frame < 2 ^ 28 := (mem_freePages.mp hfound).1
  refine ⟨frame, allocator, hget, ?_⟩
  intro s' leaf'
  obtain ⟨hrep, hframe, hmarked⟩ := map_granted console hready hpos hget hroom
  have hrewritten : Rewritten { s with allocator := allocator } s' :=
    map_rewritten console man _ _ _
  have hbitmap : s'.allocator.pageBitmap = s.allocator.pageBitmap :=
    hrewritten.pageBitmap.trans hgranted.pageBitmap
  have hkept : ∀ page < allocator.reach, s'.allocator.Marked page ↔ allocator.Marked page := by
    intro page hpage
    rw [PageAllocator.reach, hgranted.pageBitmap] at hpage
    rw [hmarked page hpage, hgranted.marked page hpage.le]
  refine ⟨⟨hrep, ?_, ?_, ?_⟩, ⟨?_, ?_, ?_, ?_, hbitmap⟩, hrewritten.VAI, ?_, ?_⟩
  · rw [hbitmap]
    exact hsize
  · rw [hbitmap]
    exact hready.apart
  · exact scanBehind_congr hrewritten.pageBitmap hrewritten.pageI hkept
      (scanBehind_getPage hsize hpos hready.behind hget)
  · intro page hpage
    obtain rfl := List.mem_singleton.mp hpage
    refine ⟨frame, Function.update_self _ _ _, hgranted.aligned, ?_, hgranted.tracked,
      hgranted.unmarked, (hmarked _ hgranted.tracked).mpr (Or.inr rfl)⟩
    unfold pageIndex at hlow
    omega
  · intro page hpage other hother _
    rw [List.mem_singleton.mp hpage, List.mem_singleton.mp hother]
  · intro page hpage
    exact Function.update_of_ne (fun heq => hpage (List.mem_singleton.mpr heq)) _ _
  · intro page hpage hset
    exact (hmarked page hpage).mpr (Or.inl hset)
  · rw [freePages_congr hrewritten.pageBitmap hkept, freePages_getPage hgranted]
    exact (Finset.card_erase_add_one hfound).symm
  · exact ((getPage_agreeOutside hsize hpos hget).mono Set.subset_union_right).trans
      (hframe.mono Set.subset_union_left)

/-! ## One pool -/

theorem virtualPage_of_toNat {addr : Word64} (haddr : addr.toNat = 4096 * page)
    (hlow : page < 2 ^ 36) : virtualPage addr = page := by
  unfold virtualPage
  omega

/-- `Ready` does not depend on the cursor or on `VAI`. -/
theorem Ready.move (hready : Ready man placement leaf s) (cur : TextRenderer.Cursor)
    (VAI : Word64) : Ready man placement leaf { s with cur := cur, VAI := VAI } :=
  ⟨⟨hready.represents.layout, hready.represents.count_eq⟩, hready.sized, hready.apart,
    hready.behind⟩

/-- The loop of `getPool` maps the next `count` pages. -/
theorem mapPages_backed (console : Console) (count : ℕ) (hready : Ready man placement leaf s)
    (hVAI : s.VAI.toNat = 4096 * first) (hend : first + count < 2 ^ 36)
    (hfree : count ≤ (freePages s.allocator (2 ^ 28)).card)
    (hroom : Room man (insertPages placement (List.range' first count)).count) :
    ∃ s' leaf', man.mapPages console count s = some s' ∧
      Ready man (insertPages placement (List.range' first count)) leaf' s' ∧
      Backed s.allocator leaf s'.allocator leaf' (List.range' first count) ∧
      s'.VAI.toNat = 4096 * (first + count) ∧
      (freePages s.allocator (2 ^ 28)).card =
        (freePages s'.allocator (2 ^ 28)).card + count ∧
      AgreeOutside (poolWrites man s.allocator.pageBitmap) s.memory s'.memory := by
  induction count generalizing s placement leaf first with
  | zero =>
      exact ⟨s, leaf, rfl, hready, Backed.refl _ _, hVAI, (Nat.add_zero _).symm,
        AgreeOutside.refl _ _⟩
  | succ count ih =>
      have hpage : virtualPage s.VAI = first := virtualPage_of_toNat hVAI (by omega)
      rw [List.range'_succ] at hroom ⊢
      have hroom' : Room man (insertPage placement first).count :=
        hroom.mono (count_le_insertPages _ _)
      obtain ⟨frame, allocator, hget, hready', hbacked, hVAI', hcard, hagree⟩ :=
        pass_backed console hready (Finset.card_pos.mp (by omega))
          (by rw [hpage]; exact hroom')
      rw [hpage] at hready' hbacked
      let mapped := man.map console s.VAI frame { s with allocator := allocator }
      let next : Kernel := { mapped with cur := mapped.cur.newLine, VAI := mapped.VAI + 0x1000 }
      have hcard : (freePages s.allocator (2 ^ 28)).card =
          (freePages mapped.allocator (2 ^ 28)).card + 1 := hcard
      have hnextVAI : next.VAI.toNat = 4096 * (first + 1) := by
        change (mapped.VAI + 0x1000).toNat = _
        rw [toNat_add_page, hVAI', hVAI]
        omega
      obtain ⟨s', leaf', hrun, hready'', hbacked', hend', hcard', hagree'⟩ :=
        ih (s := next) (hready'.move _ _) hnextVAI (by omega)
          (show count ≤ (freePages mapped.allocator (2 ^ 28)).card by omega) hroom
      refine ⟨s', leaf', ?_, hready'', ?_, by omega, ?_, ?_⟩
      · rw [PTableMan.mapPages, hget, Option.bind_some]
        exact hrun
      · refine hbacked.trans hbacked' fun page hpage hlater => ?_
        rw [List.mem_singleton.mp hpage] at hlater
        have := List.mem_range'_1.mp hlater
        omega
      · have hcard' : (freePages mapped.allocator (2 ^ 28)).card =
            (freePages s'.allocator (2 ^ 28)).card + count := hcard'
        omega
      · refine hagree.trans ?_
        rw [← hbacked.pageBitmap]
        exact hagree'

/-! ## Sequences of pools -/

/-- What the calls return from page `first` on. -/
def poolStarts : ℕ → List Word64 → List Word64
  | _, [] => []
  | first, size :: sizes =>
      BitVec.ofNat 64 (4096 * first) :: poolStarts (first + poolPages size + 1) sizes

theorem le_poolsEnd (first : ℕ) (sizes : List Word64) : first ≤ poolsEnd first sizes := by
  induction sizes generalizing first with
  | nil => exact le_rfl
  | cons size sizes ih => exact (by omega : first ≤ first + poolPages size + 1).trans (ih _)

theorem le_of_mem_pagesOf {sizes : List Word64} (hpage : page ∈ pagesOf first sizes) :
    first ≤ page ∧ page < poolsEnd first sizes := by
  induction sizes generalizing first with
  | nil => cases hpage
  | cons size sizes ih =>
      have hle : first + poolPages size + 1 ≤ poolsEnd (first + poolPages size + 1) sizes :=
        le_poolsEnd _ sizes
      rcases List.mem_append.mp hpage with hpage | hpage
      · have := List.mem_range'_1.mp hpage
        rw [poolsEnd]
        omega
      · have := ih hpage
        rw [poolsEnd]
        omega

theorem length_poolStarts (first : ℕ) (sizes : List Word64) :
    (poolStarts first sizes).length = sizes.length := by
  induction sizes generalizing first with
  | nil => rfl
  | cons size sizes ih => exact congrArg (· + 1) (ih _)

theorem toNat_pages {size : Word64} (hsize : poolPages size < 2 ^ 32) :
    ((size / 0x1000 + 1).setWidth 32).toNat = poolPages size := by
  have hlast := size.isLt
  have hdiv : (size / 0x1000).toNat = size.toNat / 4096 := BitVec.toNat_udiv
  rw [BitVec.toNat_setWidth, BitVec.toNat_add, hdiv]
  change (size.toNat / 4096 + 1) % 2 ^ 64 % 2 ^ 32 = _
  unfold poolPages at hsize ⊢
  omega

/-- Every call of the sequence returns. -/
theorem getPools_backed (console : Console) {sizes : List Word64}
    (hready : Ready man placement leaf s) (hVAI : s.VAI.toNat = 4096 * first)
    (hsizes : ∀ size ∈ sizes, poolPages size < 2 ^ 32) (hend : poolsEnd first sizes ≤ 2 ^ 36)
    (hfree : (pagesOf first sizes).length ≤ (freePages s.allocator (2 ^ 28)).card)
    (hroom : Room man (insertPages placement (pagesOf first sizes)).count) :
    ∃ s' leaf', getPools console man sizes s = some (poolStarts first sizes, s') ∧
      Ready man (insertPages placement (pagesOf first sizes)) leaf' s' ∧
      Backed s.allocator leaf s'.allocator leaf' (pagesOf first sizes) := by
  induction sizes generalizing s placement leaf first with
  | nil => exact ⟨s, leaf, rfl, hready, Backed.refl _ _⟩
  | cons size sizes ih =>
      have hle := le_poolsEnd (first + poolPages size + 1) sizes
      rw [poolsEnd] at hend
      rw [pagesOf, List.length_append, List.length_range'] at hfree
      rw [pagesOf, insertPages_append] at hroom
      obtain ⟨s₁, leaf₁, hmap, hready₁, hbacked₁, hVAI₁, hcard₁, -⟩ :=
        mapPages_backed console (poolPages size) hready hVAI (by omega) (by omega)
          (hroom.mono (count_le_insertPages _ _))
      have hpages := toNat_pages (hsizes size List.mem_cons_self)
      have hstart : s.VAI = BitVec.ofNat 64 (4096 * first) := by
        rw [← hVAI, BitVec.ofNat_toNat, BitVec.setWidth_eq]
      let next : Kernel := { s₁ with VAI := s₁.VAI + 0x1000 }
      have hnextVAI : next.VAI.toNat = 4096 * (first + poolPages size + 1) := by
        change (s₁.VAI + 0x1000).toNat = _
        rw [toNat_add_page, hVAI₁]
        omega
      obtain ⟨s', leaf', hrun, hready', hbacked'⟩ :=
        ih (s := next) (hready₁.move _ _) hnextVAI
          (fun other hother => hsizes other (List.mem_cons_of_mem _ hother)) hend
          (show _ ≤ (freePages s₁.allocator (2 ^ 28)).card by omega) hroom
      refine ⟨s', leaf', ?_, by rwa [pagesOf, insertPages_append], ?_⟩
      · rw [getPools, PTableMan.getPool, hpages, hmap, Option.map_some, Option.bind_some, hrun,
          poolStarts, hstart]
        rfl
      · refine hbacked₁.trans hbacked' fun page hpage hlater => ?_
        have hin := List.mem_range'_1.mp hpage
        have hout := le_of_mem_pagesOf hlater
        omega

/-- Where a pool of the sequence starts. -/
theorem start_of_mem_pools {sizes : List Word64} {pool : Word64 × Word64}
    (hpool : pool ∈ (poolStarts first sizes).zip sizes) :
    ∃ start, pool.1 = BitVec.ofNat 64 (4096 * start) ∧ first ≤ start ∧
      start + poolPages pool.2 < poolsEnd first sizes ∧
      ∀ page, start ≤ page → page < start + poolPages pool.2 → page ∈ pagesOf first sizes := by
  induction sizes generalizing first with
  | nil => cases hpool
  | cons size sizes ih =>
      have hle := le_poolsEnd (first + poolPages size + 1) sizes
      rcases List.mem_cons.mp hpool with rfl | hrest
      · refine ⟨first, rfl, le_rfl, Nat.lt_of_succ_le hle, ?_⟩
        intro page hfirst hlast
        exact List.mem_append_left _ (List.mem_range'_1.mpr ⟨hfirst, hlast⟩)
      · obtain ⟨start, hstart, hfirst, hlast, hpages⟩ := ih hrest
        refine ⟨start, hstart, by omega, hlast, fun page hfirst hlast => ?_⟩
        exact List.mem_append_right _ (hpages page hfirst hlast)

/-- The page after a pool belongs to none. -/
theorem pairwise_pools {sizes : List Word64} (hend : poolsEnd first sizes ≤ 2 ^ 36) :
    ((poolStarts first sizes).zip sizes).Pairwise fun earlier later => ∃ page,
      earlier.1.toNat + earlier.2.toNat ≤ 4096 * page ∧ 4096 * (page + 1) ≤ later.1.toNat ∧
      page ∉ pagesOf first sizes ∧ first ≤ page ∧ page < poolsEnd first sizes := by
  induction sizes generalizing first with
  | nil => exact List.Pairwise.nil
  | cons size sizes ih =>
      rw [poolsEnd] at hend
      have hle := le_poolsEnd (first + poolPages size + 1) sizes
      refine List.pairwise_cons.mpr ⟨fun later hlater => ?_, (ih hend).imp ?_⟩
      · obtain ⟨start, hstart, hfirst, hlast, -⟩ := start_of_mem_pools hlater
        have hlater : later.1.toNat = 4096 * start := by
          rw [hstart, BitVec.toNat_ofNat]
          omega
        have hearlier : (BitVec.ofNat 64 (4096 * first)).toNat = 4096 * first := by
          rw [BitVec.toNat_ofNat]
          omega
        refine ⟨first + poolPages size, ?_, by omega, ?_, by omega, ?_⟩
        · change (BitVec.ofNat 64 (4096 * first)).toNat + size.toNat ≤ _
          rw [hearlier]
          unfold poolPages
          omega
        · rw [pagesOf, List.mem_append, not_or]
          constructor
          · intro hin
            have := List.mem_range'_1.mp hin
            omega
          · intro hin
            have := le_of_mem_pagesOf hin
            omega
        · rw [poolsEnd]
          omega
      · rintro earlier later ⟨page, hbefore, hafter, hnotin, hfirst, hlast⟩
        refine ⟨page, hbefore, hafter, ?_, by omega, hlast⟩
        rw [pagesOf, List.mem_append, not_or]
        refine ⟨fun hin => ?_, hnotin⟩
        have := List.mem_range'_1.mp hin
        omega

/-- Every address of the pools lies in a page that was mapped. -/
theorem virtualPage_mem_pagesOf {sizes : List Word64} {addr : Word64}
    (hend : poolsEnd first sizes ≤ 2 ^ 36)
    (hin : InPools ((poolStarts first sizes).zip sizes) addr) :
    virtualPage addr = pageIndex addr ∧ virtualPage addr ∈ pagesOf first sizes := by
  obtain ⟨pool, hpool, i, hi, rfl⟩ := hin
  obtain ⟨start, hstart, hfirst, hlast, hpages⟩ := start_of_mem_pools hpool
  have haddr : (pool.1 + BitVec.ofNat 64 i).toNat = 4096 * start + i := by
    rw [hstart, ← BitVec.ofNat_add, BitVec.toNat_ofNat]
    omega
  have hpage : pageIndex (pool.1 + BitVec.ofNat 64 i) = start + i / 4096 := by
    unfold pageIndex
    omega
  have hvirtual : virtualPage (pool.1 + BitVec.ofNat 64 i) = start + i / 4096 := by
    unfold virtualPage
    omega
  rw [hvirtual, hpage]
  exact ⟨rfl, hpages _ (by omega) (by omega)⟩

/-- Calls of `getPool` in a stretch of virtual memory that is not mapped yet, with enough
free pages below `2^40` and room in the directory: all of them return, and the pools are
backed, disjoint and guarded. -/
theorem getPools_served {sizes : List Word64} (hready : Ready man placement leaf s)
    (haligned : s.VAI.toNat = 4096 * first) (hsizes : ∀ size ∈ sizes, poolPages size < 2 ^ 32)
    (hend : 4096 * poolsEnd first sizes ≤ 2 ^ 48)
    (hunmapped : ∀ page, first ≤ page → page < poolsEnd first sizes → leaf page = none)
    (hdir : man.dirAddr.toNat % 4096 = 0)
    (hinside : ∀ k ≤ (insertPages placement (pagesOf first sizes)).count, Inside man k)
    (hfree : (pagesOf first sizes).length ≤ (freePages s.allocator (2 ^ 28)).card) :
    ∃ rets s', getPools console man sizes s = some (rets, s') ∧ rets.length = sizes.length ∧
      Served man s' (rets.zip sizes) := by
  have hroom := room_of_inside hdir hinside
  obtain ⟨s', leaf', hrun, hready', hbacked⟩ :=
    getPools_backed console hready haligned hsizes (by omega) hfree hroom
  have hframe : ∀ addr, InPools ((poolStarts first sizes).zip sizes) addr → ∃ frame,
      leaf' (virtualPage addr) = some frame ∧ s'.allocator.Marked (pageIndex frame) ∧
      Translates s'.memory man.dirAddr addr frame := by
    intro addr hin
    obtain ⟨-, hpage⟩ := virtualPage_mem_pagesOf (by omega) hin
    obtain ⟨frame, hleaf, haligned, hlow, -, -, hset⟩ := hbacked.mapped _ hpage
    have hself : pageAlign frame = frame := by
      apply BitVec.eq_of_toNat_eq
      rw [toNat_pageAlign]
      omega
    have htranslates := translates_of_leaf hready'.represents hroom hleaf hlow
    rw [hself] at htranslates
    exact ⟨frame, hleaf, hset, htranslates⟩
  refine ⟨poolStarts first sizes, s', hrun, length_poolStarts first sizes, ?_, ?_, ?_, ?_⟩
  · intro addr hin
    obtain ⟨frame, -, hset, htranslates⟩ := hframe addr hin
    exact ⟨frame, htranslates, hset⟩
  · intro addr other frame hin hin' htranslates htranslates'
    obtain ⟨frame₁, hleaf₁, -, htranslates₁⟩ := hframe addr hin
    obtain ⟨frame₂, hleaf₂, -, htranslates₂⟩ := hframe other hin'
    obtain ⟨hvirtual, hpage⟩ := virtualPage_mem_pagesOf (by omega) hin
    obtain ⟨hvirtual', hpage'⟩ := virtualPage_mem_pagesOf (by omega) hin'
    rw [← hvirtual, ← hvirtual']
    refine hbacked.distinct _ hpage _ hpage' ?_
    rw [hleaf₁, hleaf₂, htranslates₁.unique htranslates, htranslates₂.unique htranslates']
  · intro pool hpool i hi
    refine ⟨pool, hpool, i, ?_, rfl⟩
    unfold poolPages
    omega
  · refine (pairwise_pools (by omega)).imp ?_
    rintro earlier later ⟨page, hbefore, hafter, hnotin, hfirst, hlast⟩
    refine ⟨page, hbefore, hafter, fun addr haddr => ?_⟩
    have hvirtual : virtualPage addr = page := by
      unfold virtualPage
      unfold pageIndex at haddr
      omega
    refine unmapped_of_leaf hready'.represents (fun _ _ => BitVec.getLsbD_zero) hroom ?_
    rw [hvirtual, hbacked.kept page hnotin]
    exact hunmapped page hfirst hlast

/-- A kernel with a bitmap of four bytes at `0x8000`, all of memory clear. -/
def withBitmap : Kernel :=
  { unmapped (fun _ => 0) with
    allocator := { (unmapped fun _ => 0).allocator with pageBitmap := ⟨4, 0x8000⟩ }
    VAI := 0x7000 }

theorem ready_withBitmap :
    Ready ⟨0x100000, 0x10000⟩ (Placement.initial 512) (fun _ => none) withBitmap where
  represents := represents_initial rfl fun index _ => cells_unmapped _ index
  sized := show (4 : Word64).toNat ≤ 2 ^ 49 by decide
  apart := by
    rw [Set.disjoint_left]
    rintro address ⟨hfirst, hlast⟩ hstore
    change (address - 0x8000).toNat < 4 at hstore
    change 0x100000 ≤ address.toNat at hfirst
    bv_omega
  behind := fun page _ => Nat.zero_le page

/-- Pools of one page and of nothing, at page 7. -/
theorem getPools_served_two :
    ∃ rets s', getPools headless ⟨0x100000, 0x10000⟩ [0x1000, 0] withBitmap = some (rets, s') ∧
      rets.length = 2 ∧ Served ⟨0x100000, 0x10000⟩ s' (rets.zip [0x1000, 0]) := by
  have hpages : pagesOf 7 [0x1000, 0] = [7, 8, 10] := by decide
  have hcount : (insertPages (Placement.initial 512) [7, 8, 10]).count = 3 := by decide +kernel
  have hroom : Room ⟨0x100000, 0x10000⟩ 3 := ⟨by decide, by decide, by decide, by decide, by decide⟩
  have hfree : 3 ≤ (freePages withBitmap.allocator (2 ^ 28)).card := by
    have hsubset : {0, 1, 2} ⊆ freePages withBitmap.allocator (2 ^ 28) := by
      intro page hpage
      simp only [Finset.mem_insert, Finset.mem_singleton] at hpage
      rcases hpage with rfl | rfl | rfl <;> exact mem_freePages.mpr ⟨by decide, by decide⟩
    exact Finset.card_le_card hsubset
  have hVAI : withBitmap.VAI.toNat = 4096 * 7 := rfl
  refine getPools_served ready_withBitmap hVAI ?_ (by decide) (fun _ _ _ => rfl) (by decide) ?_ ?_
  · simp [poolPages]
  · rw [hpages, hcount]
    exact fun k hk => Room.inside_table hroom hk
  · rw [hpages]
    exact hfree

end RedX.PagePool
