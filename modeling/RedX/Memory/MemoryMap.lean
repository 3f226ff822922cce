import Mathlib.Algebra.GroupWithZero.Nat
import Mathlib.Data.Finset.Card
import Mathlib.Data.List.MinMax
import Mathlib.Data.Set.Lattice
import Mathlib.Order.CompletePartialOrder
import RedX.Core.CountedLoop
import RedX.Memory.PageAllocation

/-!
# UEFI memory maps

The descriptors that the firmware hands over, what makes a map valid, and the
sets of page numbers that a map determines: the conventional pages, the place
of the page bitmap, and the pages that each pass of `readMap` reaches.
-/

namespace RedX.MemoryMap

open RedX.MachineWord
open RedX.CountedLoop
open RedX.PageAllocation

/-- The fields of `EFI_MEMORY_DESCRIPTOR` that the kernel reads. -/
structure EfiMemoryDescriptor where
  type : Word32
  physAddr : Word64
  pages : Word64
  deriving Inhabited, DecidableEq

abbrev EfiMemoryMap := List EfiMemoryDescriptor

/-- `EfiConventionalMemory` -/
def EfiMemoryDescriptor.IsConventional (desc : EfiMemoryDescriptor) : Prop := desc.type = 7

instance (desc : EfiMemoryDescriptor) : Decidable desc.IsConventional :=
  inferInstanceAs (Decidable (_ = _))

def EfiMemoryDescriptor.firstPage (desc : EfiMemoryDescriptor) : ℕ := pageIndex desc.physAddr

def EfiMemoryDescriptor.Covers (desc : EfiMemoryDescriptor) (page : ℕ) : Prop :=
  desc.firstPage ≤ page ∧ page < desc.firstPage + desc.pages.toNat

/-- Page-aligned descriptors that are not empty, end inside the address space
and do not overlap; any order, any holes. -/
structure Valid (map : EfiMemoryMap) : Prop where
  aligned : ∀ desc ∈ map, desc.physAddr.toNat % 4096 = 0
  nonempty : ∀ desc ∈ map, 0 < desc.pages.toNat
  inside : ∀ desc ∈ map, desc.firstPage + desc.pages.toNat ≤ 2 ^ 52
  disjoint : map.Pairwise fun left right => ∀ page, left.Covers page → ¬ right.Covers page

/-- A descriptor that ends before all others begin. -/
theorem Valid.cons {map : EfiMemoryMap} {desc : EfiMemoryDescriptor} (hvalid : Valid map)
    (haligned : desc.physAddr.toNat % 4096 = 0) (hpos : 0 < desc.pages.toNat)
    (hinside : desc.firstPage + desc.pages.toNat ≤ 2 ^ 52)
    (hbefore : ∀ other ∈ map, desc.firstPage + desc.pages.toNat ≤ other.firstPage) :
    Valid (desc :: map) where
  aligned := List.forall_mem_cons.mpr ⟨haligned, hvalid.aligned⟩
  nonempty := List.forall_mem_cons.mpr ⟨hpos, hvalid.nonempty⟩
  inside := List.forall_mem_cons.mpr ⟨hinside, hvalid.inside⟩
  disjoint := by
    refine List.pairwise_cons.mpr ⟨fun other hother page hleft hright => ?_, hvalid.disjoint⟩
    have hlast := hbefore other hother
    have hfirst : other.firstPage ≤ page := hright.1
    have hend : page < desc.firstPage + desc.pages.toNat := hleft.2
    omega

theorem valid_nil : Valid [] := ⟨by simp, by simp, by simp, List.Pairwise.nil⟩

/-- A map with one descriptor, of conventional memory. -/
def oneSegment (addr pages : Word64) : EfiMemoryMap := [⟨7, addr, pages⟩]

theorem oneSegment_valid {addr pages : Word64} (haligned : addr.toNat % 4096 = 0)
    (hpos : 0 < pages.toNat) (hinside : pageIndex addr + pages.toNat ≤ 2 ^ 52) :
    Valid (oneSegment addr pages) :=
  valid_nil.cons haligned hpos hinside (by simp)

def conventionalPages (map : EfiMemoryMap) : Set ℕ :=
  {page | ∃ desc ∈ map, desc.IsConventional ∧ desc.Covers page}

/-- The descriptor sizes added up, in pages and modulo `2^64` bytes.  The loop
that adds them has an `int` counter, so it stops after `2^31` descriptors. -/
def memoryPages (map : EfiMemoryMap) : ℕ :=
  ((map.take (2 ^ 31)).map fun desc => desc.pages.toNat).sum % 2 ^ 52

/-- One bit for each page of `memoryPages`, rounded up to whole bytes. -/
def bitmapBytes (map : EfiMemoryMap) : ℕ := memoryPages map / 8 + 1

theorem mem_conventionalPages_oneSegment {addr pages : Word64} {page : ℕ} :
    page ∈ conventionalPages (oneSegment addr pages) ↔
      pageIndex addr ≤ page ∧ page < pageIndex addr + pages.toNat := by
  simp [conventionalPages, oneSegment, EfiMemoryDescriptor.IsConventional,
    EfiMemoryDescriptor.Covers, EfiMemoryDescriptor.firstPage]

/-- The first of the largest conventional descriptors. -/
def largestConventional (map : EfiMemoryMap) : Option EfiMemoryDescriptor :=
  (map.filter fun desc => desc.IsConventional).argmax fun desc => desc.pages.toNat

theorem largestConventional_concat_of_not {map : EfiMemoryMap} {desc : EfiMemoryDescriptor}
    (hconventional : ¬ desc.IsConventional) :
    largestConventional (map ++ [desc]) = largestConventional map := by
  simp [largestConventional, hconventional]

/-- A later conventional descriptor replaces the largest one only if it is longer. -/
theorem largestConventional_concat {map : EfiMemoryMap} {desc : EfiMemoryDescriptor}
    (hconventional : desc.IsConventional) :
    largestConventional (map ++ [desc]) =
      (largestConventional map).elim (some desc) fun best =>
        if best.pages.toNat < desc.pages.toNat then some desc else some best := by
  have hfilter : (map ++ [desc]).filter (fun desc => desc.IsConventional) =
      map.filter (fun desc => desc.IsConventional) ++ [desc] := by
    simp [hconventional]
  rw [largestConventional, hfilter, List.argmax_concat, ← largestConventional]
  cases largestConventional map <;> rfl

theorem largestConventional_mem {map : EfiMemoryMap} {desc : EfiMemoryDescriptor}
    (hlargest : largestConventional map = some desc) : desc ∈ map ∧ desc.IsConventional := by
  simpa using List.argmax_mem hlargest

/-- The bitmap is placed at the start of that descriptor. -/
def bitmapBase (map : EfiMemoryMap) : Word64 :=
  (largestConventional map).elim 0 EfiMemoryDescriptor.physAddr

/-- The pages that hold a byte of the bitmap. -/
def bitmapPages (map : EfiMemoryMap) : Set ℕ :=
  {page | ∃ i < bitmapBytes map, page = pageIndex (bitmapBase map + BitVec.ofNat 64 i)}

/-- The pages that are locked for the bitmap: `size / 4096 + 1` of them from its
start. -/
def lockedPages (map : EfiMemoryMap) : Set ℕ :=
  {page | ∃ i ≤ bitmapBytes map / 4096, page = (pageIndex (bitmapBase map) + i) % 2 ^ 52}

/-- The pages that the reserve pass reaches: page numbers from 0 to the size of
memory, as far as a 32-bit byte offset goes. -/
def reservedPages (map : EfiMemoryMap) : Set ℕ :=
  {page | page ≤ memoryPages map ∧ page < 2 ^ 19}

/-- The pages before a descriptor of more than `2^19` pages that its release
pass reaches once the 32-bit byte offset has become negative. -/
def wrappedPages (desc : EfiMemoryDescriptor) : Set ℕ :=
  {page | ∃ k < 2 ^ 19, 2 ^ 19 + k < desc.pages.toNat ∧
    page = (desc.firstPage + (2 ^ 52 - 2 ^ 19) + k) % 2 ^ 52}

/-- The pages that the release pass reaches. -/
def releasedPages (map : EfiMemoryMap) : Set ℕ :=
  {page | ∃ desc ∈ map, desc.IsConventional ∧
    (desc.Covers page ∧ page < desc.firstPage + 2 ^ 19 ∨ page ∈ wrappedPages desc)}

/-- A descriptor that covers the whole address space is the only one. -/
theorem Valid.eq_singleton {map : EfiMemoryMap} {desc : EfiMemoryDescriptor}
    (hvalid : Valid map) (hdesc : desc ∈ map) (hall : desc.pages.toNat = 2 ^ 52) :
    map = [desc] := by
  have hfirst : desc.firstPage = 0 := by
    have := hvalid.inside desc hdesc
    omega
  have hcovers : ∀ other : EfiMemoryDescriptor, desc.Covers other.firstPage := by
    intro other
    have := pageIndex_lt other.physAddr
    unfold EfiMemoryDescriptor.Covers
    rw [hfirst]
    exact ⟨Nat.zero_le _, by rwa [hall, Nat.zero_add]⟩
  obtain ⟨before, after, rfl⟩ := List.append_of_mem hdesc
  have hself : ∀ other ∈ before ++ desc :: after, other.Covers other.firstPage := by
    intro other hother
    have := hvalid.nonempty other hother
    exact ⟨le_refl _, by omega⟩
  have hpairs := List.pairwise_append.mp hvalid.disjoint
  have hbefore : before = [] := by
    rw [List.eq_nil_iff_forall_not_mem]
    intro other hother
    exact hpairs.2.2 other hother desc (by simp) other.firstPage
      (hself other (by simp [hother])) (hcovers other)
  have hafter : after = [] := by
    rw [List.eq_nil_iff_forall_not_mem]
    intro other hother
    exact (List.pairwise_cons.mp hpairs.2.1).1 other hother other.firstPage
      (hcovers other) (hself other (by simp [hother]))
  rw [hbefore, hafter]
  rfl

/-- Different descriptors start on different pages. -/
theorem Valid.length_le {map : EfiMemoryMap} (hvalid : Valid map) : map.length ≤ 2 ^ 52 := by
  have hnodup : (map.map EfiMemoryDescriptor.firstPage).Nodup := by
    rw [List.Nodup, List.pairwise_map]
    refine (List.Pairwise.and_mem.mp hvalid.disjoint).imp fun {left right} hpair hsame => ?_
    obtain ⟨hleft, hright, hdisjoint⟩ := hpair
    have hleftPos := hvalid.nonempty left hleft
    have hrightPos := hvalid.nonempty right hright
    exact hdisjoint left.firstPage ⟨le_refl _, by omega⟩ ⟨by omega, by omega⟩
  have hsubset : (map.map EfiMemoryDescriptor.firstPage).toFinset ⊆ Finset.range (2 ^ 52) := by
    intro page hpage
    rw [List.mem_toFinset, List.mem_map] at hpage
    obtain ⟨desc, -, rfl⟩ := hpage
    exact Finset.mem_range.mpr (pageIndex_lt desc.physAddr)
  calc
    map.length = (map.map EfiMemoryDescriptor.firstPage).length := (List.length_map _).symm
    _ = (map.map EfiMemoryDescriptor.firstPage).toFinset.card :=
      (List.toFinset_card_of_nodup hnodup).symm
    _ ≤ (Finset.range (2 ^ 52)).card := Finset.card_le_card hsubset
    _ = 2 ^ 52 := Finset.card_range _

/-! ## Page numbers of loop steps -/

theorem pageIndex_add_mul (addr offset : Word64) (pages : ℕ)
    (hoffset : offset.toNat = pages * 4096) :
    pageIndex (addr + offset) = (pageIndex addr + pages) % 2 ^ 52 := by
  unfold pageIndex
  rw [BitVec.toNat_add, hoffset]
  have := addr.isLt
  omega

theorem pageIndex_wideStep (addr : Word64) {i : ℕ} (hi : i < 2 ^ 52) :
    pageIndex (wideStep addr i) = (pageIndex addr + i) % 2 ^ 52 := by
  apply pageIndex_add_mul
  rw [BitVec.toNat_mul, BitVec.toNat_ofNat]
  change i % 2 ^ 64 * 4096 % 2 ^ 64 = _
  omega

/-- An `int` counter moves forward through `2^19` pages, then through the `2^19`
pages before the start, and so on again. -/
theorem pageIndex_intStep (addr : Word64) (i : ℕ) :
    pageIndex (intStep addr (BitVec.ofNat 32 i)) =
      if i % 2 ^ 20 < 2 ^ 19 then (pageIndex addr + i % 2 ^ 20) % 2 ^ 52
      else (pageIndex addr + (2 ^ 52 - 2 ^ 20 + i % 2 ^ 20)) % 2 ^ 52 := by
  have hproduct : (BitVec.ofNat 32 i * 4096).toNat = i % 2 ^ 20 * 4096 := by
    rw [BitVec.toNat_mul, BitVec.toNat_ofNat]
    change i % 2 ^ 32 * 4096 % 2 ^ 32 = _
    omega
  split_ifs with hforward
  · apply pageIndex_add_mul
    rw [toNat_signExtend_of_lt (by omega), hproduct]
  · apply pageIndex_add_mul
    rw [toNat_signExtend_of_ge (by omega), hproduct]
    omega

variable {desc : EfiMemoryDescriptor} {page : ℕ}

/-- The pages that one call of `releases` reaches. -/
theorem exists_release_step_iff (hinside : desc.firstPage + desc.pages.toNat ≤ 2 ^ 52)
    (page : ℕ) :
    (∃ i < intPasses desc.pages,
        page = pageIndex (intStep desc.physAddr (BitVec.ofNat 32 i))) ↔
      desc.Covers page ∧ page < desc.firstPage + 2 ^ 19 ∨ page ∈ wrappedPages desc := by
  have hpasses : intPasses desc.pages = min desc.pages.toNat (2 ^ 31) := by
    unfold intPasses
    split_ifs <;> omega
  constructor
  · rintro ⟨i, hi, rfl⟩
    rw [pageIndex_intStep]
    unfold EfiMemoryDescriptor.Covers EfiMemoryDescriptor.firstPage at *
    split_ifs with hforward
    · left
      omega
    · right
      refine ⟨i % 2 ^ 20 - 2 ^ 19, by omega, by omega, ?_⟩
      unfold EfiMemoryDescriptor.firstPage
      omega
  · rintro (⟨⟨hfirst, hlast⟩, hnear⟩ | ⟨k, hk, hpages, rfl⟩)
    · refine ⟨page - desc.firstPage, by omega, ?_⟩
      rw [pageIndex_intStep, if_pos (by omega)]
      unfold EfiMemoryDescriptor.firstPage at *
      omega
    · refine ⟨2 ^ 19 + k, by omega, ?_⟩
      rw [pageIndex_intStep, if_neg (by omega)]
      unfold EfiMemoryDescriptor.firstPage
      omega

end RedX.MemoryMap
