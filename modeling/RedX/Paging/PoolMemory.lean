import RedX.Core.AddressSpace
import RedX.Core.Simulation
import RedX.Paging.PagePool

/-!
# Pools as memory

With paging on, a program reaches the pages of its pools through the tables that
`getPool` writes.  `physical` is where the processor finds a byte.  A run of `getPool`,
stores into pools and calls of the allocator that free nothing is a run of a memory of
private pools (`pool_memory_refines`).  Of the pages that were locked before, it changes
the bytes in which the kernel keeps its own variables and its call stack, and no others
(`locked_pages_untouched`).
-/

namespace RedX.PoolMemory

open RedX.MachineWord
open RedX.ByteMemory
open RedX.PartialRun
open RedX.Simulation
open RedX.AddressSpace
open RedX.RadixTree
open RedX.PageBitmap
open RedX.PageAllocation
open RedX.PagePass
open RedX.FreePages
open RedX.TableEntry
open RedX.PageTables
open RedX.PageTree
open RedX.MapRun
open RedX.Translation
open RedX.PagePool

/-! ## The processor -/

/-- The upper 17 bits of the address are equal; every other address faults. -/
def Canonical (addr : Word64) : Prop := addr.toNat < 2 ^ 47 ∨ 2 ^ 64 - 2 ^ 47 ≤ addr.toNat

instance (addr : Word64) : Decidable (Canonical addr) :=
  inferInstanceAs (Decidable (_ ∨ _))

/-- The place of a byte that is read or written through four writable entries. -/
def physical (memory : Memory) (dirAddr virtAddr : Word64) : Option Word64 :=
  let path := walk memory dirAddr (indices virtAddr)
  if Canonical virtAddr ∧ path.length = 4 ∧
      ∀ entry ∈ path, hasFlag entry .P = true ∧ hasFlag entry .RW = true ∧
        hasFlag entry .LP = false then
    path.getLast?.map fun entry => entry.getAddr + BitVec.ofNat 64 (virtAddr.toNat % 4096)
  else none

/-- The kernel and the pools that it has got so far. -/
structure Machine where
  kernel : Kernel
  pools : List (Word64 × Word64)

inductive Event
  | getPool (size : Word64)
  | store (virtAddr : Word64) (value : Byte)
  | call (call : PagePass.Call)

def step (console : Console) (man : PTableMan) (m : Machine) : Event → Option Machine
  | .getPool size =>
      (man.getPool console size m.kernel).map fun pool =>
        ⟨pool.2, m.pools ++ [(pool.1, size)]⟩
  | .store virtAddr value =>
      (physical m.kernel.memory man.dirAddr virtAddr).map fun place =>
        { m with kernel := m.kernel.withMemory (store8 m.kernel.memory place value) }
  | .call call =>
      (perform m.kernel.allocator call).map fun allocator =>
        { m with kernel := { m.kernel with allocator := allocator } }

/-! ## What a program sees -/

/-- Pools of bytes. -/
structure Pools where
  given : List (Word64 × Word64)
  contents : Word64 → Byte

/-- A new pool meets no other and leaves their bytes alone; what it holds is open.  A store
changes one byte. -/
inductive Pools.Step : Pools → Event → Pools → Prop
  | getPool {pools : Pools} (size start : Word64) (contents : Word64 → Byte)
      (hfresh : ∀ addr, InPools pools.given addr → ¬ InPools [(start, size)] addr)
      (hkept : ∀ addr, InPools pools.given addr → contents addr = pools.contents addr) :
      Step pools (.getPool size) ⟨pools.given ++ [(start, size)], contents⟩
  | store {pools : Pools} (virtAddr : Word64) (value : Byte)
      (haddr : InPools pools.given virtAddr) :
      Step pools (.store virtAddr value)
        ⟨pools.given, Function.update pools.contents virtAddr value⟩
  | call {pools : Pools} (call : PagePass.Call) : Step pools (.call call) pools

/-! ## The setting -/

/-- The bytes of page tables and of the bitmap, with the byte after it that the bit of the
limit is in. -/
def tableStore (man : PTableMan) (bitmap : Bitmap) : Set Word64 :=
  region man ∪ bitmapStore bitmap (bitmap.size.toNat + 1)

/-- Pools of these sizes fit into virtual memory that is not mapped and the tables into the
directory. -/
structure Fits (man : PTableMan) (placement : Placement 512) (leaf : ℕ → Option Word64)
    (first : ℕ) (sizes : List Word64) : Prop where
  canonical : 4096 * poolsEnd first sizes ≤ 2 ^ 47
  unmapped : ∀ page, first ≤ page → page < poolsEnd first sizes → leaf page = none
  room : Room man (insertPages placement (pagesOf first sizes)).count

/-- The kernel may give out pools from page `first` on, with frames of the free pages below
`limit`: none of these holds a byte of tables or bitmap, which are mapped to themselves. -/
structure Setting (man : PTableMan) (placement : Placement 512) (leaf : ℕ → Option Word64)
    (first limit : ℕ) (s : Kernel) : Prop where
  ready : Ready man placement leaf s
  start : s.VAI.toNat = 4096 * first
  fits : Fits man placement leaf first []
  low : limit ≤ 2 ^ 28
  pos : 0 < s.allocator.pageBitmap.size.toNat
  apart : Disjoint (region man)
    (bitmapStore s.allocator.pageBitmap (s.allocator.pageBitmap.size.toNat + 1))
  locked : ∀ addr ∈ tableStore man s.allocator.pageBitmap,
    pageIndex addr ∉ freePages s.allocator limit
  identity : ∀ addr ∈ tableStore man s.allocator.pageBitmap, addr.toNat < 2 ^ 40 ∧
    ∃ frame, leaf (virtualPage addr) = some frame ∧ pageAlign frame = pageAlign addr

def Machine.sizes (m : Machine) : List Word64 := m.pools.map Prod.snd

/-- There are pages for a pool and it fits, stores go into pools and nothing is freed. -/
def Allowed (man : PTableMan) (placement : Placement 512) (leaf : ℕ → Option Word64)
    (first limit : ℕ) (m : Machine) : Event → Prop
  | .getPool size =>
      poolPages size ≤ (freePages m.kernel.allocator limit).card ∧
        Fits man placement leaf first (m.sizes ++ [size])
  | .store virtAddr _ => InPools m.pools virtAddr
  | .call call => call.pass.sets = true

/-- The bytes that a run may write: tables, bitmap and free pages below `limit`. -/
def writable (man : PTableMan) (limit : ℕ) (s : Kernel) : Set Word64 :=
  tableStore man s.allocator.pageBitmap ∪ {addr | pageIndex addr ∈ freePages s.allocator limit}

/-- What holds after pools of these sizes have been given. -/
structure Serves (man : PTableMan) (placement : Placement 512) (leaf : ℕ → Option Word64)
    (first limit : ℕ) (s : Kernel) (sizes : List Word64) (leaf' : ℕ → Option Word64)
    (m : Machine) : Prop where
  fits : Fits man placement leaf first sizes
  ready : Ready man (insertPages placement (pagesOf first sizes)) leaf' m.kernel
  backed : Backed s.allocator leaf m.kernel.allocator leaf' (pagesOf first sizes)
  frames : ∀ page ∈ pagesOf first sizes, ∀ frame, leaf' page = some frame →
    pageIndex frame ∈ freePages s.allocator limit
  VAI : m.kernel.VAI.toNat = 4096 * poolsEnd first sizes
  pools : m.pools = (poolStarts first sizes).zip sizes

variable {console : Console} {man : PTableMan} {placement : Placement 512}
  {leaf leaf' : ℕ → Option Word64} {first limit count page : ℕ} {s s' : Kernel} {sizes : List Word64}
  {size addr frame : Word64} {m m' : Machine} {events : List Event}

theorem physical_of_translates {memory : Memory} {dirAddr : Word64}
    (htranslates : Translates memory dirAddr addr frame) (hcanonical : Canonical addr) :
    physical memory dirAddr addr = some (frame + BitVec.ofNat 64 (addr.toNat % 4096)) := by
  have hleaf := htranslates.leaf
  rw [Option.map_eq_some_iff] at hleaf
  obtain ⟨entry, hlast, rfl⟩ := hleaf
  rw [physical, if_pos ⟨hcanonical, htranslates.length, htranslates.writable⟩, hlast]
  rfl

/-! ## Lists of pools -/

theorem poolsEnd_concat (first : ℕ) (sizes : List Word64) (size : Word64) :
    poolsEnd first (sizes ++ [size]) = poolsEnd first sizes + poolPages size + 1 := by
  induction sizes generalizing first with
  | nil => rfl
  | cons other sizes ih => exact ih _

theorem pagesOf_concat (first : ℕ) (sizes : List Word64) (size : Word64) :
    pagesOf first (sizes ++ [size]) =
      pagesOf first sizes ++ List.range' (poolsEnd first sizes) (poolPages size) := by
  induction sizes generalizing first with
  | nil => exact List.append_nil _
  | cons other sizes ih =>
      rw [List.cons_append, pagesOf, ih, pagesOf, poolsEnd, List.append_assoc]

theorem poolStarts_concat (first : ℕ) (sizes : List Word64) (size : Word64) :
    poolStarts first (sizes ++ [size]) =
      poolStarts first sizes ++ [BitVec.ofNat 64 (4096 * poolsEnd first sizes)] := by
  induction sizes generalizing first with
  | nil => rfl
  | cons other sizes ih => exact congrArg _ (ih _)

/-! ## A new pool -/

theorem freePages_mono {a : PageAllocator} {less more : ℕ} (hle : less ≤ more) :
    freePages a less ⊆ freePages a more := by
  intro page hpage
  obtain ⟨hlimit, hfree⟩ := mem_freePages.mp hpage
  exact mem_freePages.mpr ⟨hlimit.trans_le hle, hfree⟩

/-- The loop of `getPool` marks pages that were free below the limit. -/
theorem mapPages_marked (hready : Ready man placement leaf s) (hlow : limit ≤ 2 ^ 28)
    (hVAI : s.VAI.toNat = 4096 * first) (hend : first + count < 2 ^ 36)
    (hfree : count ≤ (freePages s.allocator limit).card)
    (hroom : Room man (insertPages placement (List.range' first count)).count)
    (hmap : man.mapPages console count s = some s') (hpage : page < s.allocator.reach)
    (hmarked : s'.allocator.Marked page) :
    s.allocator.Marked page ∨ page ∈ freePages s.allocator limit := by
  induction count generalizing s placement leaf first with
  | zero =>
      cases hmap
      exact Or.inl hmarked
  | succ count ih =>
      have hstands : virtualPage s.VAI = first := virtualPage_of_toNat hVAI (by omega)
      rw [List.range'_succ] at hroom
      have hroom' : Room man (insertPage placement first).count :=
        hroom.mono (count_le_insertPages _ _)
      rw [← hstands] at hroom'
      have hnonempty : (freePages s.allocator limit).Nonempty := Finset.card_pos.mp (by omega)
      rw [PTableMan.mapPages, Option.bind_eq_some_iff] at hmap
      obtain ⟨⟨frame, allocator⟩, hget, hmap⟩ := hmap
      have hsize := hready.sized
      obtain ⟨lowest, hlowest⟩ := hnonempty
      have hpos := (mem_freePages.mp hlowest).2.pos
      have hgranted := getPage_granted hsize hpos hget
      have hfound := found_mem_freePages hsize hready.behind hget ⟨lowest, hlowest⟩
      obtain ⟨frame', allocator', hget', hready', hbacked, hVAI', -, -⟩ :=
        pass_backed console hready ⟨lowest, freePages_mono hlow hlowest⟩ hroom'
      obtain ⟨rfl, rfl⟩ := Prod.mk.inj (Option.some.inj (hget'.symm.trans hget))
      obtain ⟨-, -, hmarks⟩ := map_granted console hready hpos hget hroom'
      have hbitmap := hbacked.pageBitmap
      have hreach : (man.map console s.VAI frame' { s with allocator := allocator' }).allocator.reach
          = s.allocator.reach := by rw [PageAllocator.reach, hbitmap, PageAllocator.reach]
      have hpages : freePages (man.map console s.VAI frame'
          { s with allocator := allocator' }).allocator limit =
          (freePages s.allocator limit).erase (pageIndex frame') := by
        rw [← freePages_getPage hgranted]
        refine freePages_congr (hbitmap.trans hgranted.pageBitmap.symm) fun page hpage => ?_
        rw [PageAllocator.reach, hgranted.pageBitmap] at hpage
        rw [hmarks page hpage, hgranted.marked page hpage.le]
      rw [hstands] at hready'
      have hrest := ih (hready'.move _ _)
        (show _ = 4096 * (first + 1) by rw [toNat_add_page, hVAI', hVAI]; omega) (by omega)
        (by
          change count ≤ (freePages (man.map console _ _ _).allocator limit).card
          rw [hpages, Finset.card_erase_of_mem hfound]
          omega)
        hroom hmap (by rw [hreach]; exact hpage)
      rcases hrest with hset | hfree
      · rcases (hmarks page hpage).mp hset with hset | rfl
        · exact Or.inl hset
        · exact Or.inr hfound
      · exact Or.inr (Finset.mem_of_mem_erase (hpages ▸ hfree))

/-- A page that was free at the start holds no byte of tables or bitmap. -/
theorem Setting.not_mem_tableStore (hsetting : Setting man placement leaf first limit s)
    (hfree : pageIndex frame ∈ freePages s.allocator limit)
    (hpage : pageIndex addr = pageIndex frame) :
    addr ∉ tableStore man s.allocator.pageBitmap := by
  intro hmem
  exact hsetting.locked addr hmem (hpage ▸ hfree)

theorem bitmapStore_mono (bitmap : Bitmap) {less more : ℕ} (hle : less ≤ more) :
    bitmapStore bitmap less ⊆ bitmapStore bitmap more :=
  fun _ hmem => Nat.lt_of_lt_of_le hmem hle

theorem poolWrites_subset (man : PTableMan) (bitmap : Bitmap) :
    poolWrites man bitmap ⊆ tableStore man bitmap :=
  Set.union_subset_union_right _ (bitmapStore_mono _ (Nat.le_succ _))

theorem Serves.reach (hserves : Serves man placement leaf first limit s sizes leaf' m) :
    m.kernel.allocator.reach = s.allocator.reach := by
  rw [PageAllocator.reach, hserves.backed.pageBitmap, PageAllocator.reach]

/-- Marked pages stay marked, so no page becomes free. -/
theorem Serves.freePages_subset (hserves : Serves man placement leaf first limit s sizes leaf' m) :
    freePages m.kernel.allocator limit ⊆ freePages s.allocator limit := by
  intro page hpage
  obtain ⟨hlimit, hreach, hclear⟩ := mem_freePages.mp hpage
  rw [hserves.reach] at hreach
  refine mem_freePages.mpr ⟨hlimit, hreach, fun hset => hclear ?_⟩
  exact hserves.backed.marked page (by omega) hset

theorem Serves.sizes_eq (hserves : Serves man placement leaf first limit s sizes leaf' m) :
    m.sizes = sizes := by
  rw [Machine.sizes, hserves.pools]
  exact List.map_snd_zip (length_poolStarts first sizes).ge

theorem card_freePages_lt (a : PageAllocator) (hlow : limit ≤ 2 ^ 28) :
    (freePages a limit).card < 2 ^ 32 := by
  have hcard := Finset.card_filter_le (Finset.range limit) fun page => Free a page
  rw [Finset.card_range] at hcard
  exact hcard.trans_lt (by omega)

/-- `getPool` gives a new pool at `VAI` and writes tables and bitmap only. -/
theorem serves_getPool (console : Console) (hsetting : Setting man placement leaf first limit s)
    (hserves : Serves man placement leaf first limit s sizes leaf' m)
    (hallowed : Allowed man placement leaf first limit m (.getPool size)) :
    ∃ m' leaf'', step console man m (.getPool size) = some m' ∧
      Serves man placement leaf first limit s (sizes ++ [size]) leaf'' m' ∧
      (∀ page < poolsEnd first sizes, leaf'' page = leaf' page) ∧
      m'.pools = m.pools ++ [(BitVec.ofNat 64 (4096 * poolsEnd first sizes), size)] ∧
      AgreeOutside (poolWrites man s.allocator.pageBitmap) m.kernel.memory m'.kernel.memory := by
  obtain ⟨hfree, hfits⟩ := hallowed
  rw [hserves.sizes_eq] at hfits
  have hsize : poolPages size < 2 ^ 32 := hfree.trans_lt (card_freePages_lt _ hsetting.low)
  have hbitmap := hserves.backed.pageBitmap
  have hend := hfits.canonical
  have hroom := hfits.room
  rw [poolsEnd_concat] at hend
  rw [pagesOf_concat, insertPages_append] at hroom
  obtain ⟨mapped, leaf'', hmap, hready, hbacked, hVAI, -, hagree⟩ :=
    mapPages_backed console (poolPages size) hserves.ready hserves.VAI (by omega)
      (hfree.trans (Finset.card_le_card (freePages_mono hsetting.low))) hroom
  rw [hbitmap] at hagree
  have hagree : AgreeOutside (poolWrites man s.allocator.pageBitmap) m.kernel.memory
    mapped.allocator.memory := hagree
  have hstart : m.kernel.VAI = BitVec.ofNat 64 (4096 * poolsEnd first sizes) := by
    rw [← hserves.VAI, BitVec.ofNat_toNat, BitVec.setWidth_eq]
  have hkept : ∀ page < poolsEnd first sizes, leaf'' page = leaf' page := by
    refine fun page hpage => hbacked.kept page fun hmem => ?_
    have hafter := List.mem_range'_1.mp hmem
    omega
  refine ⟨⟨{ mapped with VAI := mapped.VAI + 0x1000 }, m.pools ++ [(m.kernel.VAI, size)]⟩, leaf'',
    ?_, ⟨hfits, ?_, ?_, ?_, ?_, ?_⟩, hkept, by rw [hstart], hagree⟩
  · rw [step, PTableMan.getPool, toNat_pages hsize, hmap]
    rfl
  · rw [pagesOf_concat, insertPages_append]
    exact hready.move _ _
  · rw [pagesOf_concat]
    refine hserves.backed.trans hbacked fun page hpage hlater => ?_
    have hbefore := (le_of_mem_pagesOf hpage).2
    have hafter := List.mem_range'_1.mp hlater
    omega
  · rw [pagesOf_concat]
    intro page hpage frame hframe
    rcases List.mem_append.mp hpage with hold | hnew
    · rw [hkept page (le_of_mem_pagesOf hold).2] at hframe
      exact hserves.frames page hold frame hframe
    · obtain ⟨frame', hleaf, -, -, hreach, hclear, hset⟩ := hbacked.mapped page hnew
      obtain rfl : frame = frame' := Option.some.inj (hframe.symm.trans hleaf)
      refine hserves.freePages_subset ((mapPages_marked hserves.ready hsetting.low hserves.VAI
        (by omega) hfree hroom hmap hreach hset).resolve_left hclear)
  · rw [poolsEnd_concat]
    change (mapped.VAI + 0x1000).toNat = _
    rw [toNat_add_page, hVAI]
    omega
  · rw [poolStarts_concat, List.zip_append (length_poolStarts first sizes), hserves.pools, hstart]
    rfl

/-! ## Where the bytes of the pools are -/

/-- The processor finds a byte of a pool in a page that was free below the limit. -/
theorem physical_of_inPools (hserves : Serves man placement leaf first limit s sizes leaf' m)
    (hin : InPools m.pools addr) :
    ∃ frame, leaf' (virtualPage addr) = some frame ∧
      physical m.kernel.memory man.dirAddr addr =
        some (frame + BitVec.ofNat 64 (addr.toNat % 4096)) ∧
      frame.toNat % 4096 = 0 ∧ frame.toNat < 2 ^ 40 ∧
      pageIndex frame ∈ freePages s.allocator limit := by
  have hend := hserves.fits.canonical
  rw [hserves.pools] at hin
  obtain ⟨hvirtual, hpage⟩ := virtualPage_mem_pagesOf (by omega) hin
  obtain ⟨frame, hleaf, haligned, hlow, -⟩ := hserves.backed.mapped _ hpage
  have hself : pageAlign frame = frame := by
    apply BitVec.eq_of_toNat_eq
    rw [toNat_pageAlign]
    omega
  have htranslates :=
    translates_of_leaf hserves.ready.represents hserves.fits.room hleaf hlow
  rw [hself] at htranslates
  have hcanonical : Canonical addr := by
    have hlast := (le_of_mem_pagesOf hpage).2
    rw [hvirtual] at hlast
    unfold pageIndex at hlast
    exact Or.inl (by omega)
  exact ⟨frame, hleaf, physical_of_translates htranslates hcanonical, haligned, hlow,
    hserves.frames _ hpage frame hleaf⟩

def Machine.used (m : Machine) : Set Word64 := {addr | InPools m.pools addr}

theorem toNat_place {byte : ℕ} (haligned : frame.toNat % 4096 = 0) (hlow : frame.toNat < 2 ^ 40) :
    (frame + BitVec.ofNat 64 (byte % 4096)).toNat = frame.toNat + byte % 4096 := by
  rw [BitVec.toNat_add, BitVec.toNat_ofNat]
  omega

/-- The bytes of the pools are in different places outside tables and bitmap. -/
theorem private_pools (hsetting : Setting man placement leaf first limit s)
    (hserves : Serves man placement leaf first limit s sizes leaf' m) :
    Private (physical m.kernel.memory man.dirAddr) m.used
      (tableStore man s.allocator.pageBitmap) where
  mapped addr hin := by
    obtain ⟨frame, -, hplace, haligned, hlow, hfree⟩ := physical_of_inPools hserves hin
    refine ⟨_, hsetting.not_mem_tableStore hfree ?_, hplace⟩
    unfold pageIndex
    rw [toNat_place haligned hlow]
    omega
  injective addr hin other hother heq := by
    have hend := hserves.fits.canonical
    obtain ⟨frame, hleaf, hplace, haligned, hlow, -⟩ := physical_of_inPools hserves hin
    obtain ⟨frame', hleaf', hplace', haligned', hlow', -⟩ := physical_of_inPools hserves hother
    rw [hplace, hplace', Option.some.injEq] at heq
    have hvalue := congrArg BitVec.toNat heq
    rw [toNat_place haligned hlow, toNat_place haligned' hlow'] at hvalue
    obtain rfl : frame = frame' := BitVec.eq_of_toNat_eq (by omega)
    have hin : InPools m.pools addr := hin
    have hother : InPools m.pools other := hother
    rw [hserves.pools] at hin hother
    obtain ⟨hvirtual, hpage⟩ := virtualPage_mem_pagesOf (by omega) hin
    obtain ⟨hvirtual', hpage'⟩ := virtualPage_mem_pagesOf (by omega) hother
    have hsame := hserves.backed.distinct _ hpage _ hpage' (hleaf.trans hleaf'.symm)
    rw [hvirtual, hvirtual'] at hsame
    unfold pageIndex at hsame
    exact BitVec.eq_of_toNat_eq (by omega)

/-- A byte of a pool whose page keeps its frame stays where it is. -/
theorem physical_congr {more : List Word64} {leaf'' : ℕ → Option Word64}
    (hserves : Serves man placement leaf first limit s sizes leaf' m)
    (hserves' : Serves man placement leaf first limit s more leaf'' m')
    (hin : InPools m.pools addr) (hin' : InPools m'.pools addr)
    (hleaf : leaf'' (virtualPage addr) = leaf' (virtualPage addr)) :
    physical m'.kernel.memory man.dirAddr addr = physical m.kernel.memory man.dirAddr addr := by
  obtain ⟨frame, hframe, hplace, -⟩ := physical_of_inPools hserves hin
  obtain ⟨frame', hframe', hplace', -⟩ := physical_of_inPools hserves' hin'
  rw [hleaf, hframe, Option.some.injEq] at hframe'
  rw [hplace, hplace', hframe']

/-! ## Stores and calls of the allocator -/

/-- Marked pages stay marked. -/
theorem Backed.later {a b c : PageAllocator} {pages : List ℕ} (hbacked : Backed a leaf b leaf' pages)
    (hmarked : ∀ page < a.reach, b.Marked page → c.Marked page)
    (hbitmap : c.pageBitmap = b.pageBitmap) : Backed a leaf c leaf' pages where
  mapped page hpage := by
    obtain ⟨frame, hleaf, haligned, hlow, hreach, hclear, hset⟩ := hbacked.mapped page hpage
    exact ⟨frame, hleaf, haligned, hlow, hreach, hclear, hmarked _ hreach hset⟩
  distinct := hbacked.distinct
  kept := hbacked.kept
  marked page hpage hset := hmarked page hpage (hbacked.marked page hpage hset)
  pageBitmap := hbitmap.trans hbacked.pageBitmap

/-- A write outside tables and bitmap serves the same pools. -/
theorem Serves.write (hserves : Serves man placement leaf first limit s sizes leaf' m)
    {touched : Set Word64}
    {memory : Memory} (hagree : AgreeOutside touched m.kernel.memory memory)
    (hapart : Disjoint (tableStore man s.allocator.pageBitmap) touched) :
    Serves man placement leaf first limit s sizes leaf'
      { m with kernel := m.kernel.withMemory memory } := by
  have hbitmap := hserves.backed.pageBitmap
  have hsized := hserves.ready.sized
  have hstore : Disjoint touched
      (bitmapStore m.kernel.allocator.pageBitmap m.kernel.allocator.pageBitmap.size.toNat) := by
    rw [hbitmap]
    exact hapart.symm.mono_right
      ((bitmapStore_mono _ (Nat.le_succ _)).trans Set.subset_union_right)
  have hmarked : ∀ page < m.kernel.allocator.reach,
      (m.kernel.withMemory memory).allocator.Marked page ↔ m.kernel.allocator.Marked page :=
    fun page hpage => marked_of_agreeOutside hsized hagree hstore hpage
  refine ⟨hserves.fits, ⟨?_, hsized, hserves.ready.apart, ?_⟩, ?_, hserves.frames, hserves.VAI,
    hserves.pools⟩
  · exact represents_of_agreeOutside hserves.ready.represents hserves.fits.room
      (hapart.mono_left Set.subset_union_left) hagree rfl
  · exact scanBehind_congr (s := m.kernel.allocator) rfl rfl hmarked hserves.ready.behind
  · refine Backed.later hserves.backed (fun page hpage hset => ?_) rfl
    exact (hmarked page (by rwa [hserves.reach])).mpr hset

theorem serves_call (hsetting : Setting man placement leaf first limit s)
    (hserves : Serves man placement leaf first limit s sizes leaf' m) {call : PagePass.Call}
    (hsets : call.pass.sets = true) (hstep : step console man m (.call call) = some m') :
    Serves man placement leaf first limit s sizes leaf' m' ∧ m'.pools = m.pools ∧
      AgreeOutside (tableStore man s.allocator.pageBitmap) m.kernel.memory m'.kernel.memory := by
  rw [step, Option.map_eq_some_iff] at hstep
  obtain ⟨allocator, hperform, rfl⟩ := hstep
  have hbitmap := hserves.backed.pageBitmap
  have hsized := hserves.ready.sized
  have hflips := perform_flips hsized hperform
  have hagree := perform_agreeOutside hsized hperform
  rw [hbitmap] at hagree
  have hbitmap' : allocator.pageBitmap = m.kernel.allocator.pageBitmap := hflips.pageBitmap
  have hmarked : ∀ page < s.allocator.reach,
      m.kernel.allocator.Marked page → allocator.Marked page := by
    intro page hpage hset
    refine (hflips.marked page (by rw [hserves.reach]; exact hpage.le)).mpr ?_
    split_ifs
    · exact hsets
    · exact hset
  have hstore : AgreeOutside (tableStore man s.allocator.pageBitmap) m.kernel.memory
      allocator.memory := hagree.mono Set.subset_union_right
  refine ⟨⟨hserves.fits, ⟨?_, ?_, ?_, ?_⟩, ?_, hserves.frames, hserves.VAI, hserves.pools⟩,
    rfl, hstore⟩
  · exact represents_of_agreeOutside hserves.ready.represents hserves.fits.room hsetting.apart
      hagree rfl
  · exact hbitmap' ▸ hsized
  · change Disjoint _ (bitmapStore allocator.pageBitmap allocator.pageBitmap.size.toNat)
    rw [hbitmap']
    exact hserves.ready.apart
  · exact scanBehind_perform hsized (by rw [hbitmap]; exact hsetting.pos) hserves.ready.behind
      hperform
  · exact Backed.later hserves.backed hmarked hbitmap'

theorem serves_store (hsetting : Setting man placement leaf first limit s)
    (hserves : Serves man placement leaf first limit s sizes leaf' m) (console : Console)
    (value : Byte) (hin : InPools m.pools addr) :
    ∃ m' place, step console man m (.store addr value) = some m' ∧
      Serves man placement leaf first limit s sizes leaf' m' ∧ m'.pools = m.pools ∧
      physical m.kernel.memory man.dirAddr addr = some place ∧
      pageIndex place ∈ freePages s.allocator limit ∧
      m'.kernel.memory = store8 m.kernel.memory place value := by
  obtain ⟨frame, -, hplace, haligned, hlow, hfree⟩ := physical_of_inPools hserves hin
  have hpage : pageIndex (frame + BitVec.ofNat 64 (addr.toNat % 4096)) = pageIndex frame := by
    unfold pageIndex
    rw [toNat_place haligned hlow]
    omega
  have hagree : AgreeOutside {frame + BitVec.ofNat 64 (addr.toNat % 4096)} m.kernel.memory
      (store8 m.kernel.memory (frame + BitVec.ofNat 64 (addr.toNat % 4096)) value) := by
    intro address houtside
    rw [store8_apply, if_neg fun heq => houtside (Set.mem_singleton_iff.mpr heq)]
  refine ⟨_, _, by rw [step, hplace, Option.map_some], hserves.write hagree ?_, rfl, hplace,
    by rwa [hpage], rfl⟩
  rw [Set.disjoint_singleton_right]
  exact hsetting.not_mem_tableStore hfree hpage

/-! ## Runs -/

/-- The pools are served, and a program sees their contents through the tables. -/
structure Related (man : PTableMan) (placement : Placement 512) (leaf : ℕ → Option Word64)
    (first limit : ℕ) (s : Kernel) (m : Machine) (pools : Pools) : Prop where
  serves : ∃ leaf', Serves man placement leaf first limit s m.sizes leaf' m
  given : pools.given = m.pools
  shows : Shows (physical m.kernel.memory man.dirAddr) m.used m.kernel.memory pools.contents

theorem inPools_concat {pools : List (Word64 × Word64)} {pool : Word64 × Word64} :
    InPools (pools ++ [pool]) addr ↔ InPools pools addr ∨ InPools [pool] addr := by
  simp only [InPools, List.mem_append, or_and_right, exists_or]

/-- A new pool starts behind the pages of the others. -/
theorem not_inPools_next (hserves : Serves man placement leaf first limit s sizes leaf' m)
    (hfits : Fits man placement leaf first (sizes ++ [size])) (hin : InPools m.pools addr) :
    virtualPage addr < poolsEnd first sizes ∧
      ¬ InPools [(BitVec.ofNat 64 (4096 * poolsEnd first sizes), size)] addr := by
  have hend := hfits.canonical
  rw [poolsEnd_concat] at hend
  rw [hserves.pools] at hin
  obtain ⟨-, hpage⟩ := virtualPage_mem_pagesOf (by omega) hin
  have hbefore := (le_of_mem_pagesOf hpage).2
  refine ⟨hbefore, fun hnext => ?_⟩
  have hend' : poolsEnd (poolsEnd first sizes) [size] ≤ 2 ^ 36 := by
    change poolsEnd first sizes + poolPages size + 1 ≤ _
    omega
  obtain ⟨-, hpage'⟩ := virtualPage_mem_pagesOf hend' hnext
  have hafter := (le_of_mem_pagesOf hpage').1
  omega

theorem related_getPool {pools : Pools} (console : Console)
    (hsetting : Setting man placement leaf first limit s)
    (hrelated : Related man placement leaf first limit s m pools)
    (hallowed : Allowed man placement leaf first limit m (.getPool size)) :
    ∃ m' pools', step console man m (.getPool size) = some m' ∧
      Pools.Step pools (.getPool size) pools' ∧
      Related man placement leaf first limit s m' pools' := by
  obtain ⟨⟨leaf', hserves⟩, hgiven, hshows⟩ := hrelated
  have hfits := hallowed.2
  obtain ⟨m', leaf'', hstep, hserves', hleaf, hpools, hagree⟩ :=
    serves_getPool console hsetting hserves hallowed
  have hold : ∀ addr, InPools m.pools addr → InPools m'.pools addr := fun addr hin => by
    rw [hpools, inPools_concat]
    exact Or.inl hin
  have hprivate' := private_pools hsetting hserves'
  have hseen : Shows (physical m'.kernel.memory man.dirAddr) m.used m'.kernel.memory
      pools.contents := by
    refine hshows.congr (fun addr hin => ?_) fun addr hin place hplace => hagree place fun hmem => ?_
    · exact physical_congr hserves hserves' hin (hold addr hin)
        (hleaf _ (not_inPools_next hserves hfits hin).1)
    · obtain ⟨target, houtside, htarget⟩ := (private_pools hsetting hserves).mapped addr hin
      obtain rfl : target = place := Option.some.inj (htarget.symm.trans hplace)
      exact houtside (poolWrites_subset man _ hmem)
  have hnew := hprivate'.shows_seen m'.kernel.memory 0
  refine ⟨m', _, hstep, .getPool size (BitVec.ofNat 64 (4096 * poolsEnd first m.sizes))
    (seen (physical m'.kernel.memory man.dirAddr) m'.kernel.memory 0) ?_ ?_, ⟨leaf'', ?_⟩, ?_,
    hnew⟩
  · intro addr hin
    rw [hgiven] at hin
    exact (not_inPools_next hserves hfits hin).2
  · intro addr hin
    rw [hgiven] at hin
    exact hseen.unique (fun addr hin => hnew addr (hold addr hin)) hin
  · rw [hserves'.sizes_eq]
    exact hserves'
  · rw [hpools, hgiven]

theorem related_store {pools : Pools} (console : Console) (value : Byte)
    (hsetting : Setting man placement leaf first limit s)
    (hrelated : Related man placement leaf first limit s m pools) (hin : InPools m.pools addr) :
    ∃ m' pools', step console man m (.store addr value) = some m' ∧
      Pools.Step pools (.store addr value) pools' ∧
      Related man placement leaf first limit s m' pools' := by
  obtain ⟨⟨leaf', hserves⟩, hgiven, hshows⟩ := hrelated
  obtain ⟨m', place, hstep, hserves', hpools, hplace, -, hmemory⟩ :=
    serves_store hsetting hserves console value hin
  refine ⟨m', _, hstep, .store addr value (hgiven ▸ hin), ⟨leaf', ?_⟩, hgiven.trans hpools.symm,
    ?_⟩
  · rw [hserves'.sizes_eq]
    exact hserves'
  · have hupdate := (private_pools hsetting hserves).shows_update hshows hin hplace value
    have hused : m'.used = m.used := by rw [Machine.used, Machine.used, hpools]
    have hstored : m'.kernel.memory = Function.update m.kernel.memory place value := by
      funext address
      rw [hmemory, store8_apply, Function.update_apply]
    rw [hused, hstored]
    refine hupdate.congr (fun other hother => ?_) fun _ _ _ _ => rfl
    rw [← hstored]
    exact physical_congr hserves hserves' hother (by rw [hpools]; exact hother) rfl

theorem related_call {pools : Pools} {call : PagePass.Call}
    (hsetting : Setting man placement leaf first limit s)
    (hrelated : Related man placement leaf first limit s m pools) (hsets : call.pass.sets = true)
    (hstep : step console man m (.call call) = some m') :
    ∃ pools', Pools.Step pools (.call call) pools' ∧
      Related man placement leaf first limit s m' pools' := by
  obtain ⟨⟨leaf', hserves⟩, hgiven, hshows⟩ := hrelated
  obtain ⟨hserves', hpools, hagree⟩ := serves_call hsetting hserves hsets hstep
  refine ⟨pools, .call call, ⟨leaf', ?_⟩, hgiven.trans hpools.symm, ?_⟩
  · rw [hserves'.sizes_eq]
    exact hserves'
  · have hused : m'.used = m.used := by rw [Machine.used, Machine.used, hpools]
    rw [hused]
    refine hshows.congr (fun addr hin => ?_) fun addr hin place hplace => hagree place ?_
    · exact physical_congr hserves hserves' hin (by rw [hpools]; exact hin) rfl
    · obtain ⟨target, houtside, htarget⟩ := (private_pools hsetting hserves).mapped addr hin
      obtain rfl : target = place := Option.some.inj (htarget.symm.trans hplace)
      exact houtside

/-- Every step of the kernel is one of a memory of private pools. -/
theorem pools_simulate (console : Console) (hsetting : Setting man placement leaf first limit s) :
    Simulates (step console man) (Allowed man placement leaf first limit) Pools.Step
      (Related man placement leaf first limit s) := by
  intro m pools event m' hrelated hallowed hstep
  cases event with
  | getPool size =>
      obtain ⟨next, pools', hnext, hmatched⟩ :=
        related_getPool console hsetting hrelated hallowed
      obtain rfl : next = m' := Option.some.inj (hnext.symm.trans hstep)
      exact ⟨pools', hmatched⟩
  | store addr value =>
      obtain ⟨next, pools', hnext, hmatched⟩ :=
        related_store console value hsetting hrelated hallowed
      obtain rfl : next = m' := Option.some.inj (hnext.symm.trans hstep)
      exact ⟨pools', hmatched⟩
  | call call => exact related_call hsetting hrelated hallowed hstep

/-- Before the first pool. -/
theorem related_start (hsetting : Setting man placement leaf first limit s)
    (contents : Word64 → Byte) :
    Related man placement leaf first limit s ⟨s, []⟩ ⟨[], contents⟩ where
  serves := ⟨leaf, hsetting.fits, hsetting.ready, Backed.refl _ _,
    fun page hpage => absurd hpage List.not_mem_nil, hsetting.start, rfl⟩
  given := rfl
  shows := fun addr hin => by
    obtain ⟨pool, hpool, -⟩ := hin
    exact absurd hpool List.not_mem_nil

/-- Tables and bitmap lie in pages that no pool takes over. -/
theorem identity_kept (hsetting : Setting man placement leaf first limit s)
    (hserves : Serves man placement leaf first limit s sizes leaf' m)
    (hmem : addr ∈ tableStore man s.allocator.pageBitmap) :
    physical m.kernel.memory man.dirAddr addr = some addr := by
  obtain ⟨hlow, frame, hidentity, halign⟩ := hsetting.identity addr hmem
  have hkept : leaf' (virtualPage addr) = some frame := by
    rw [hserves.backed.kept _ fun hpage => ?_, hidentity]
    obtain ⟨hfirst, hlast⟩ := le_of_mem_pagesOf hpage
    rw [hserves.fits.unmapped _ hfirst hlast] at hidentity
    cases hidentity
  have hplace := congrArg BitVec.toNat halign
  have haligned := toNat_pageAlign addr
  rw [toNat_pageAlign frame] at hplace
  have htranslates := translates_of_leaf hserves.ready.represents hserves.fits.room hkept (by omega)
  rw [physical_of_translates htranslates (Or.inl (by omega)), halign, Option.some.injEq]
  apply BitVec.eq_of_toNat_eq
  rw [toNat_place (by omega) (by omega)]
  omega

/-- A run of `getPool`, stores into the pools and calls of the allocator that free nothing is a
run of a memory of private pools: what is read at an address of a pool is what that memory
holds there.  Tables and bitmap stay mapped to themselves, and no pool with enough pages and no
store into a pool fails. -/
theorem pool_memory_refines (hsetting : Setting man placement leaf first limit s)
    (contents : Word64 → Byte)
    (hmeets : Meets (step console man) (Allowed man placement leaf first limit) ⟨s, []⟩ events)
    (hrun : run (step console man) ⟨s, []⟩ events = some m) :
    ∃ pools, Runs Pools.Step ⟨[], contents⟩ events pools ∧ pools.given = m.pools ∧
      (∀ addr, InPools m.pools addr →
        (physical m.kernel.memory man.dirAddr addr).map m.kernel.memory =
          some (pools.contents addr)) ∧
      (∀ addr ∈ tableStore man s.allocator.pageBitmap,
        physical m.kernel.memory man.dirAddr addr = some addr) ∧
      ∀ event, Allowed man placement leaf first limit m event → (∀ call, event ≠ .call call) →
        ∃ m', step console man m event = some m' := by
  obtain ⟨pools, hruns, hrelated⟩ :=
    (pools_simulate console hsetting).run (related_start hsetting contents) hmeets hrun
  obtain ⟨⟨leaf', hserves⟩, hgiven, hshows⟩ := id hrelated
  refine ⟨pools, hruns, hgiven, hshows, fun addr hmem => identity_kept hsetting hserves hmem, ?_⟩
  intro event hallowed hcall
  cases event with
  | getPool size =>
      obtain ⟨m', -, hstep, -⟩ := related_getPool console hsetting hrelated hallowed
      exact ⟨m', hstep⟩
  | store addr value =>
      obtain ⟨m', -, hstep, -⟩ := related_store console value hsetting hrelated hallowed
      exact ⟨m', hstep⟩
  | call call => exact absurd rfl (hcall call)

/-! ## The kernel's own bytes -/

/-- An allowed step of a kernel that keeps its variables and its call stack in the bytes of
`own`: the step may leave anything in them. -/
def OwnStep (console : Console) (man : PTableMan) (allowed : Machine → Event → Prop)
    (own : Set Word64) (m : Machine) (event : Event) (m' : Machine) : Prop :=
  allowed m event ∧ ∃ next memory, step console man m event = some next ∧
    AgreeOutside own next.kernel.memory memory ∧
    m' = { next with kernel := next.kernel.withMemory memory }

/-- A step writes tables, bitmap and pages that were free below the limit. -/
theorem serves_step (hsetting : Setting man placement leaf first limit s)
    (hserves : Serves man placement leaf first limit s m.sizes leaf' m) {event : Event}
    (hallowed : Allowed man placement leaf first limit m event)
    (hstep : step console man m event = some m') :
    (∃ leaf'', Serves man placement leaf first limit s m'.sizes leaf'' m') ∧
      AgreeOutside (writable man limit s) m.kernel.memory m'.kernel.memory := by
  cases event with
  | getPool size =>
      obtain ⟨next, leaf'', hnext, hserves', -, -, hagree⟩ :=
        serves_getPool console hsetting hserves hallowed
      obtain rfl : next = m' := Option.some.inj (hnext.symm.trans hstep)
      refine ⟨⟨leaf'', ?_⟩,
        hagree.mono ((poolWrites_subset man _).trans Set.subset_union_left)⟩
      rw [hserves'.sizes_eq]
      exact hserves'
  | store virtAddr value =>
      obtain ⟨next, place, hnext, hserves', -, -, hfree, hmemory⟩ :=
        serves_store hsetting hserves console value hallowed
      obtain rfl : next = m' := Option.some.inj (hnext.symm.trans hstep)
      refine ⟨⟨leaf', ?_⟩, fun address houtside => ?_⟩
      · rw [hserves'.sizes_eq]
        exact hserves'
      · rw [hmemory, store8_apply, if_neg]
        rintro rfl
        exact houtside (Or.inr hfree)
  | call call =>
      obtain ⟨hserves', -, hagree⟩ := serves_call hsetting hserves hallowed hstep
      refine ⟨⟨leaf', ?_⟩, hagree.mono Set.subset_union_left⟩
      rw [hserves'.sizes_eq]
      exact hserves'

variable {own : Set Word64}

/-- Its own bytes are neither tables nor bitmap, so the kernel can go on from what a step leaves
in them. -/
theorem serves_ownStep (hsetting : Setting man placement leaf first limit s)
    (hown : Disjoint (tableStore man s.allocator.pageBitmap) own)
    (hserves : Serves man placement leaf first limit s m.sizes leaf' m) {event : Event}
    (hstep : OwnStep console man (Allowed man placement leaf first limit) own m event m') :
    (∃ leaf'', Serves man placement leaf first limit s m'.sizes leaf'' m') ∧
      AgreeOutside (writable man limit s ∪ own) m.kernel.memory m'.kernel.memory := by
  obtain ⟨hallowed, next, memory, hnext, hagree, rfl⟩ := hstep
  obtain ⟨⟨leaf'', hserves'⟩, hwritten⟩ := serves_step hsetting hserves hallowed hnext
  exact ⟨⟨leaf'', hserves'.write hagree hown⟩,
    (hwritten.mono Set.subset_union_left).trans (hagree.mono Set.subset_union_right)⟩

/-- Besides what its steps leave in the kernel's own bytes, such a run writes page tables, the
bitmap and pages that were free below the limit, and no other byte of the memory. -/
theorem locked_pages_untouched (hsetting : Setting man placement leaf first limit s)
    (hown : Disjoint (tableStore man s.allocator.pageBitmap) own)
    (hserves : Serves man placement leaf first limit s m.sizes leaf' m)
    (hruns : Runs (OwnStep console man (Allowed man placement leaf first limit) own) m events m') :
    AgreeOutside (writable man limit s ∪ own) m.kernel.memory m'.kernel.memory := by
  induction hruns generalizing leaf' with
  | nil => exact AgreeOutside.refl _ _
  | cons hstep _ ih =>
      obtain ⟨⟨leaf'', hserves'⟩, hagree⟩ := serves_ownStep hsetting hown hserves hstep
      exact hagree.trans (ih hserves')

end RedX.PoolMemory
