import Mathlib.Algebra.BigOperators.Fin
import RedX.Paging.Translation

/-!
# The size of the page directory

The bootloader sizes the page directory from the size of memory with quotients
that are rounded down.  Identity-mapping that memory creates a table for every
started block of pages, so the formula is short by one page unless the number of
pages is a multiple of 512.
-/

namespace RedX.DirectorySize

open RedX.MachineWord
open RedX.RadixTree
open RedX.TableEntry
open RedX.PageTables
open RedX.PageTree
open RedX.MapRun
open RedX.Translation

/-- `kernelParameters.pageDirectorySize` -/
def pageDirectorySize (memSize : Word64) : Word64 :=
  (memSize / 0x1000 / 512 + memSize / 0x1000 / 512 / 512 +
    memSize / 0x1000 / 512 / 512 / 512 + 3) * 0x1000

/-- The calls of `for (i = 0; i < memSize; i += 0x1000) map(i, i)` for this many
pages. -/
def identityCalls (pages : ℕ) : List Call :=
  (List.range pages).map fun page =>
    (BitVec.ofNat 64 (4096 * page), BitVec.ofNat 64 (4096 * page))

/-- At every point of the run, the root and the tables are at most as many pages as the
region has, and lie inside it. -/
def Enough (console : Console) (man : PTableMan) (s : Kernel) (calls : List Call) : Prop :=
  ∀ past, past <+: calls →
    (mapAll console man s past).PDI.toNat + 1 ≤ man.dirSize.toNat / 0x1000 ∧
    ∀ k ≤ (mapAll console man s past).PDI.toNat, Inside man k

/-- The tables below the root that an identity mapping of this many pages needs. -/
def tableCount (pages : ℕ) : ℕ := blocks pages (512 ^ 3) + blocks pages (512 ^ 2) + blocks pages 512

theorem toNat_pageDirectorySize (memSize : Word64) :
    (pageDirectorySize memSize).toNat =
      4096 * (memSize.toNat / 4096 / 512 + memSize.toNat / 4096 / 512 ^ 2 +
        memSize.toNat / 4096 / 512 ^ 3 + 3) := by
  have hmem := memSize.isLt
  have hpages : (memSize / 0x1000).toNat = memSize.toNat / 4096 := BitVec.toNat_udiv
  have hfirst : (memSize / 0x1000 / 512).toNat = memSize.toNat / 4096 / 512 := by
    rw [BitVec.toNat_udiv, hpages]
    rfl
  have hsecond : (memSize / 0x1000 / 512 / 512).toNat = memSize.toNat / 4096 / 512 / 512 := by
    rw [BitVec.toNat_udiv, hfirst]
    rfl
  have hthird : (memSize / 0x1000 / 512 / 512 / 512).toNat =
      memSize.toNat / 4096 / 512 / 512 / 512 := by
    rw [BitVec.toNat_udiv, hsecond]
    rfl
  rw [pageDirectorySize, BitVec.toNat_mul, BitVec.toNat_add, BitVec.toNat_add, BitVec.toNat_add,
    hfirst, hsecond, hthird]
  have hbound : memSize.toNat / 4096 < 2 ^ 52 := by omega
  generalize memSize.toNat / 4096 = pages at hbound ⊢
  have hsquare : pages / 512 / 512 = pages / 512 ^ 2 := Nat.div_div_eq_div_mul pages 512 512
  have hcube : pages / 512 ^ 2 / 512 = pages / 512 ^ 3 := Nat.div_div_eq_div_mul pages (512 ^ 2) 512
  rw [hsquare, hcube]
  change (((_ + _) % 2 ^ 64 + _) % 2 ^ 64 + 3) % 2 ^ 64 * 4096 % 2 ^ 64 = _
  omega

theorem identityCalls_succ (pages : ℕ) : identityCalls (pages + 1) =
    identityCalls pages ++ [(BitVec.ofNat 64 (4096 * pages), BitVec.ofNat 64 (4096 * pages))] := by
  rw [identityCalls, List.range_succ, List.map_append]
  rfl

/-- The tree of an identity mapping has a table for every started block. -/
theorem filledTo_identityCalls {pages : ℕ} (hpages : pages ≤ 2 ^ 36) :
    FilledTo 3 (fun _ => pages) (placed (identityCalls pages)) := by
  induction pages with
  | zero => exact filledTo_initial 3 (by omega)
  | succ pages ih =>
      have hpage : virtualPage (BitVec.ofNat 64 (4096 * pages)) = pages := by
        rw [virtualPage, BitVec.toNat_ofNat]
        omega
      rw [identityCalls_succ, placed_concat, hpage]
      exact (ih (by omega)).growPath (by omega) (by omega)

theorem count_identityCalls {pages : ℕ} (hpages : pages ≤ 2 ^ 36) :
    (placed (identityCalls pages)).count = tableCount pages := by
  rw [(filledTo_identityCalls hpages).count_eq, tableCount]
  simp [Finset.sum_range_succ]

theorem identityCalls_prefix {pages more : ℕ} (hle : pages ≤ more) :
    identityCalls pages <+: identityCalls more := by
  refine ⟨(identityCalls more).drop pages, ?_⟩
  have htake : identityCalls pages = (identityCalls more).take pages := by
    rw [identityCalls, identityCalls, ← List.map_take, List.take_range, Nat.min_eq_left hle]
  rw [htake, List.take_append_drop]

/-- The formula counts rounded-down quotients and three more pages; that is enough for
the rounded-up ones and the root exactly if nothing is rounded in the last level. -/
theorem tableCount_le_iff (pages : ℕ) :
    tableCount pages + 1 ≤ pages / 512 + pages / 512 ^ 2 + pages / 512 ^ 3 + 3 ↔
      pages % 512 = 0 := by
  unfold tableCount blocks
  omega

section Enough

variable {man : PTableMan} {console : Console} {s : Kernel} {memSize : Word64}

theorem room_of_enough (haligned : man.dirAddr.toNat % 4096 = 0)
    (hcleared : ∀ index < 512, cells man s.memory index = 0) (hPDI : s.PDI = 0)
    (hapart : Disjoint (region man) console.touched) {calls : List Call}
    (henough : Enough console man s calls) : Room man (placed calls).count :=
  room_placed (represents_initial hPDI hcleared) (fun _ _ => BitVec.getLsbD_zero) hapart
    fun past hpast => room_of_inside haligned (henough past hpast).2

/-- The bootloader's directory is large enough for an identity mapping of memory exactly
if memory is a multiple of 2 MiB and needs fewer than `2^19` tables. -/
theorem enough_iff (hsize : man.dirSize = pageDirectorySize memSize)
    (haligned : man.dirAddr.toNat % 4096 = 0)
    (hlow : man.dirAddr.toNat + man.dirSize.toNat ≤ 2 ^ 40)
    (hcleared : ∀ index < 512, cells man s.memory index = 0) (hPDI : s.PDI = 0)
    (hapart : Disjoint (region man) console.touched) :
    Enough console man s (identityCalls (memSize.toNat / 4096)) ↔
      memSize.toNat / 4096 % 512 = 0 ∧ tableCount (memSize.toNat / 4096) < 2 ^ 19 := by
  have hdirSize := toNat_pageDirectorySize memSize
  rw [← hsize] at hdirSize
  rw [← tableCount_le_iff]
  constructor
  · intro henough
    have hroom := room_of_enough haligned hcleared hPDI hapart henough
    -- Beyond `2^36` pages the walk wraps, but the tables of the first `2^36` are too many.
    have hpages : memSize.toNat / 4096 ≤ 2 ^ 36 := by
      by_contra hlarge
      obtain ⟨more, hmore⟩ := identityCalls_prefix (show 2 ^ 36 ≤ memSize.toNat / 4096 by omega)
      have hle := count_placed_le_append (identityCalls (2 ^ 36)) more
      rw [hmore, count_identityCalls le_rfl] at hle
      exact absurd (hle.trans_lt hroom.numbered) (by decide)
    have hcount := count_identityCalls hpages
    rw [hcount] at hroom
    have hinside := hroom.inside
    exact ⟨by omega, hroom.numbered⟩
  · rintro ⟨hfits, hnumbered⟩
    have hpages : memSize.toNat / 4096 ≤ 2 ^ 36 := by
      unfold tableCount blocks at hnumbered
      omega
    have hcount := count_identityCalls hpages
    have hroom : Room man (placed (identityCalls (memSize.toNat / 4096))).count := by
      rw [hcount]
      refine ⟨haligned, by omega, by omega, hnumbered, ?_⟩
      rw [BitVec.toNat_udiv, BitVec.toNat_add]
      change _ ≤ (man.dirAddr.toNat + man.dirSize.toNat) % 2 ^ 64 / 4096
      omega
    have hinit : Represents man (fun _ => 0) (Placement.initial 512) (fun _ => none) s :=
      represents_initial hPDI hcleared
    intro past hpast
    refine ⟨?_, fun k hk => inside_of_room hinit hapart hroom hpast hk⟩
    obtain ⟨more, hmore⟩ := hpast
    have hle := count_placed_le_append past more
    rw [hmore] at hle
    have hrep := mapAll_represents hinit (fun _ _ => BitVec.getLsbD_zero) hapart
      (hroom.mono hle)
    rw [hrep.count_eq, hdirSize]
    omega

end Enough

/-- 2 MiB of memory: four pages, for the root and one table at each level. -/
theorem enough_two_megabytes :
    let memSize : Word64 := 0x200000
    Enough headless ⟨0x100000, pageDirectorySize memSize⟩ (unmapped fun _ => 0)
      (identityCalls (memSize.toNat / 4096)) := by
  intro memSize
  have hsize : (⟨0x100000, pageDirectorySize memSize⟩ : PTableMan).dirSize =
      pageDirectorySize memSize := rfl
  exact (enough_iff hsize (by decide) (by decide) (fun index _ => cells_unmapped _ index) rfl
    (disjoint_headless (by decide))).mpr ⟨by decide, by decide⟩

/-- One page of memory: the formula gives three pages, and the root and three tables
need four. -/
theorem one_page_short :
    ¬ Enough headless ⟨0x100000, pageDirectorySize 0x1000⟩ (unmapped fun _ => 0)
      (identityCalls 1) := by
  intro henough
  have hroom := room_of_enough (by decide) (fun index _ => cells_unmapped _ index) rfl
    (disjoint_headless (by decide)) henough
  have hcount : tableCount 1 = 3 := by decide
  rw [count_identityCalls (by decide), hcount] at hroom
  exact absurd hroom.inside (by decide)

end RedX.DirectorySize
