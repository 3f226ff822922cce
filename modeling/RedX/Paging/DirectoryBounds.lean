import RedX.Paging.Translation

/-!
# The capacity test of `allocateEntry`

`allocateEntry` compares the table number with the page number of the end of the
region, and multiplies the number by the page size in 32 bits.  `allotted_iff`
gives the numbers of calls for which its results are what they should be.
-/

namespace RedX.DirectoryBounds

open RedX.MachineWord
open RedX.TableEntry
open RedX.PageTables
open RedX.PageTree

/-- The results of a run of calls. -/
def allocateAll (man : PTableMan) (s : Kernel) : ℕ → List Word64 × Kernel
  | 0 => ([], s)
  | calls + 1 =>
      let earlier := allocateAll man s calls
      let last := man.allocateEntry earlier.2
      (earlier.1 ++ [last.1], last.2)

/-- A page-aligned page inside the directory region. -/
structure InRegion (man : PTableMan) (page : Word64) : Prop where
  aligned : page.toNat % 4096 = 0
  start : man.dirAddr.toNat ≤ page.toNat
  finish : page.toNat + 4096 ≤ man.dirAddr.toNat + man.dirSize.toNat

/-- A result is as it should be: a table is a page of the region that is neither the
root nor an earlier result, and NULL is returned exactly if no such page is left. -/
structure Allotted (man : PTableMan) (earlier : List Word64) (table : Word64) : Prop where
  placed : table ≠ 0 → InRegion man table ∧ table ≠ man.dirAddr ∧ table ∉ earlier
  exhausted : table = 0 ↔
    ∀ page, InRegion man page → page = man.dirAddr ∨ page ∈ earlier

def AllAllotted (man : PTableMan) (results : List Word64) : Prop :=
  ∀ earlier table later, results = earlier ++ table :: later → Allotted man earlier table

/-- Table number `j + 1`, which call `j` hands out. -/
def tableOf (man : PTableMan) (j : ℕ) : Word64 := man.entryAt (BitVec.ofNat 32 (j + 1))

variable {man : PTableMan} {s : Kernel} {calls j : ℕ}

theorem allocateAll_eq (hPDI : s.PDI = 0) (calls : ℕ) :
    (allocateAll man s calls).1 = (List.range calls).map (tableOf man) ∧
      (allocateAll man s calls).2.PDI = BitVec.ofNat 32 calls := by
  induction calls with
  | zero => exact ⟨rfl, hPDI⟩
  | succ calls ih =>
      obtain ⟨hresults, hcount⟩ := ih
      have hnext : BitVec.ofNat 32 calls + 1 = BitVec.ofNat 32 (calls + 1) := by
        rw [BitVec.ofNat_add]
        rfl
      rw [allocateAll, List.range_succ, List.map_append, ← hresults]
      simp only [PTableMan.allocateEntry, hcount, hnext, and_true]
      rfl

theorem allAllotted_iff (man : PTableMan) (calls : ℕ) :
    AllAllotted man ((List.range calls).map (tableOf man)) ↔
      ∀ j < calls, Allotted man ((List.range j).map (tableOf man)) (tableOf man j) := by
  have htake : ∀ j ≤ calls, ((List.range calls).map (tableOf man)).take j =
      (List.range j).map (tableOf man) := by
    intro j hj
    rw [← List.map_take, List.take_range, Nat.min_eq_left hj]
  constructor
  · intro hall j hj
    have hlength : j < ((List.range calls).map (tableOf man)).length := by simpa using hj
    have hsplit := (List.take_append_drop j ((List.range calls).map (tableOf man))).symm
    rw [List.drop_eq_getElem_cons hlength, htake j hj.le, List.getElem_map,
      List.getElem_range] at hsplit
    exact hall _ _ _ hsplit
  · intro hall earlier table later hsplit
    have hlength := congrArg List.length hsplit
    simp only [List.length_map, List.length_range, List.length_append, List.length_cons]
      at hlength
    have hearlier : earlier = (List.range earlier.length).map (tableOf man) := by
      rw [← htake _ (by omega), hsplit, List.take_left]
    have htable : table = tableOf man earlier.length := by
      have hget := congrArg (·[earlier.length]?) hsplit
      simpa [show earlier.length < calls by omega] using hget.symm
    rw [hearlier, htable]
    exact hall _ (by omega)

/-! ## The pages that the calls hand out -/

/-- The address and the size of the directory are multiples of the page size. -/
structure Directory (man : PTableMan) : Prop where
  start : man.dirAddr.toNat % 4096 = 0
  size : man.dirSize.toNat % 4096 = 0

def rootPage (man : PTableMan) : ℕ := man.dirAddr.toNat / 4096

/-- Number of pages of the region, the root among them. -/
def pageCount (man : PTableMan) : ℕ := man.dirSize.toNat / 4096

/-- Number of pages of the region below `2^64`. -/
def reach (man : PTableMan) : ℕ := min (pageCount man) (2 ^ 52 - rootPage man)

/-- The page number that the capacity test takes for the number of tables. -/
def endPage (man : PTableMan) : ℕ := (rootPage man + pageCount man) % 2 ^ 52

/-- The distance from the root, in pages, that the 32-bit product gives table `number`. -/
def tableOffset (number : ℕ) : ℕ :=
  if number % 2 ^ 20 < 2 ^ 19 then number % 2 ^ 20 else 2 ^ 52 - 2 ^ 20 + number % 2 ^ 20

/-- Page number of the result of call `j`. -/
def tablePage (man : PTableMan) (j : ℕ) : ℕ :=
  if (j + 1) % 2 ^ 32 < 2 ^ 31 ∧ (j + 1) % 2 ^ 32 ≤ endPage man then
    (rootPage man + tableOffset (j + 1)) % 2 ^ 52
  else 0

theorem toNat_tableOffset (number : ℕ) :
    ((BitVec.ofNat 32 number * 0x1000).signExtend 64).toNat = 4096 * tableOffset number := by
  have hproduct : (BitVec.ofNat 32 number * 0x1000).toNat = number % 2 ^ 20 * 4096 := by
    rw [BitVec.toNat_mul, BitVec.toNat_ofNat]
    change number % 2 ^ 32 * 4096 % 2 ^ 32 = _
    omega
  unfold tableOffset
  split_ifs with hlow
  · rw [toNat_signExtend_of_lt (by omega), hproduct]
    omega
  · rw [toNat_signExtend_of_ge (by omega), hproduct]
    omega

theorem Directory.toNat_dirAddr (hdir : Directory man) :
    man.dirAddr.toNat = 4096 * rootPage man := by
  have hstart := hdir.start
  unfold rootPage
  omega

theorem Directory.toNat_dirSize (hdir : Directory man) :
    man.dirSize.toNat = 4096 * pageCount man := by
  have hsize := hdir.size
  unfold pageCount
  omega

theorem Directory.toNat_endPage (hdir : Directory man) :
    ((man.dirAddr + man.dirSize) / 0x1000).toNat = endPage man := by
  rw [BitVec.toNat_udiv, BitVec.toNat_add, hdir.toNat_dirAddr, hdir.toNat_dirSize]
  change (4096 * rootPage man + 4096 * pageCount man) % 2 ^ 64 / 4096 = _
  unfold endPage
  omega

theorem Directory.granted_iff (hdir : Directory man) (number : ℕ) :
    ¬ (BitVec.ofNat 32 number).signExtend 64 > (man.dirAddr + man.dirSize) / 0x1000 ↔
      number % 2 ^ 32 < 2 ^ 31 ∧ number % 2 ^ 32 ≤ endPage man := by
  have hend : endPage man < 2 ^ 52 := Nat.mod_lt _ (by decide)
  have hnumber : (BitVec.ofNat 32 number).toNat = number % 2 ^ 32 := BitVec.toNat_ofNat _ _
  rw [gt_iff_lt, BitVec.lt_def, hdir.toNat_endPage]
  by_cases hsign : number % 2 ^ 32 < 2 ^ 31
  · rw [toNat_signExtend_of_lt (by omega), hnumber]
    omega
  · rw [toNat_signExtend_of_ge (by omega), hnumber]
    omega

theorem Directory.toNat_tableOf (hdir : Directory man) (j : ℕ) :
    (tableOf man j).toNat = 4096 * tablePage man j := by
  unfold tableOf PTableMan.entryAt tablePage
  by_cases hgranted : (BitVec.ofNat 32 (j + 1)).signExtend 64 >
      (man.dirAddr + man.dirSize) / 0x1000
  · rw [if_pos hgranted, if_neg (mt (hdir.granted_iff _).mpr (not_not.mpr hgranted))]
    rfl
  · rw [if_neg hgranted, if_pos ((hdir.granted_iff _).mp hgranted), BitVec.toNat_add,
      hdir.toNat_dirAddr, toNat_tableOffset]
    omega


/-! ## What is right, in page numbers -/

/-- The result of call `j` is as it should be, as a statement about page numbers. -/
structure PageAllotted (man : PTableMan) (j : ℕ) : Prop where
  placed : tablePage man j ≠ 0 → rootPage man < tablePage man j ∧
    tablePage man j < rootPage man + reach man ∧ ∀ i < j, tablePage man i ≠ tablePage man j
  exhausted : tablePage man j = 0 ↔ ∀ page, rootPage man < page →
    page < rootPage man + reach man → ∃ i < j, tablePage man i = page

theorem Directory.tableOf_eq_iff (hdir : Directory man) (page : Word64) :
    tableOf man j = page ↔ page.toNat = 4096 * tablePage man j := by
  rw [← hdir.toNat_tableOf, eq_comm, ← BitVec.toNat_inj]

theorem Directory.mem_tables_iff (hdir : Directory man) (page : Word64) :
    page ∈ (List.range j).map (tableOf man) ↔
      ∃ i < j, page.toNat = 4096 * tablePage man i := by
  simp only [List.mem_map, List.mem_range, hdir.tableOf_eq_iff]

theorem rootPage_add_reach_le (man : PTableMan) : rootPage man + reach man ≤ 2 ^ 52 := by
  have hroot := man.dirAddr.isLt
  unfold reach rootPage
  omega

theorem Directory.inRegion_iff (hdir : Directory man) (page : Word64) :
    InRegion man page ↔ page.toNat % 4096 = 0 ∧ rootPage man ≤ page.toNat / 4096 ∧
      page.toNat / 4096 < rootPage man + reach man := by
  have hpage := page.isLt
  have hstart := hdir.toNat_dirAddr
  have hsize := hdir.toNat_dirSize
  unfold reach
  constructor
  · rintro ⟨haligned, hfrom, hto⟩
    exact ⟨haligned, by omega, by omega⟩
  · rintro ⟨haligned, hfrom, hto⟩
    exact ⟨haligned, by omega, by omega⟩

theorem Directory.placed_iff (hdir : Directory man) :
    (InRegion man (tableOf man j) ∧ tableOf man j ≠ man.dirAddr ∧
      tableOf man j ∉ (List.range j).map (tableOf man)) ↔
    rootPage man < tablePage man j ∧ tablePage man j < rootPage man + reach man ∧
      ∀ i < j, tablePage man i ≠ tablePage man j := by
  rw [hdir.inRegion_iff, Ne, hdir.tableOf_eq_iff, hdir.mem_tables_iff, hdir.toNat_tableOf,
    hdir.toNat_dirAddr]
  simp only [not_exists, not_and]
  constructor
  · rintro ⟨⟨-, hfrom, hto⟩, hroot, hfresh⟩
    refine ⟨by omega, by omega, fun i hi hsame => hfresh i hi ?_⟩
    rw [hsame]
  · rintro ⟨hfrom, hto, hfresh⟩
    refine ⟨⟨by omega, by omega, by omega⟩, by omega, fun i hi hsame => hfresh i hi ?_⟩
    omega

theorem Directory.exhausted_iff (hdir : Directory man) :
    (∀ page, InRegion man page →
      page = man.dirAddr ∨ page ∈ (List.range j).map (tableOf man)) ↔
    ∀ page, rootPage man < page → page < rootPage man + reach man →
      ∃ i < j, tablePage man i = page := by
  have hroot := hdir.toNat_dirAddr
  constructor
  · intro hall page hfrom hto
    have hbound := rootPage_add_reach_le man
    have hpage : (BitVec.ofNat 64 (4096 * page)).toNat = 4096 * page := by
      rw [BitVec.toNat_ofNat]
      omega
    have hregion : InRegion man (BitVec.ofNat 64 (4096 * page)) := by
      rw [hdir.inRegion_iff, hpage]
      omega
    rcases hall _ hregion with hsame | hmem
    · rw [hsame, hroot] at hpage
      omega
    · obtain ⟨i, hi, hsame⟩ := (hdir.mem_tables_iff _).mp hmem
      exact ⟨i, hi, by omega⟩
  · intro hall page hpage
    obtain ⟨haligned, hfrom, hto⟩ := (hdir.inRegion_iff page).mp hpage
    by_cases hsame : page.toNat / 4096 = rootPage man
    · exact Or.inl (BitVec.eq_of_toNat_eq (by omega))
    · obtain ⟨i, hi, htaken⟩ := hall (page.toNat / 4096) (by omega) hto
      exact Or.inr ((hdir.mem_tables_iff page).mpr ⟨i, hi, by omega⟩)

theorem Directory.allotted_iff_pages (hdir : Directory man) (j : ℕ) :
    Allotted man ((List.range j).map (tableOf man)) (tableOf man j) ↔ PageAllotted man j := by
  have hnull : tableOf man j = 0 ↔ tablePage man j = 0 := by
    rw [hdir.tableOf_eq_iff]
    change 0 = 4096 * tablePage man j ↔ _
    omega
  constructor
  · intro hallotted
    exact ⟨fun htaken => hdir.placed_iff.mp (hallotted.placed (mt hnull.mp htaken)),
      hnull.symm.trans (hallotted.exhausted.trans hdir.exhausted_iff)⟩
  · intro hallotted
    exact ⟨fun htaken => hdir.placed_iff.mpr (hallotted.placed (mt hnull.mpr htaken)),
      hnull.trans (hallotted.exhausted.trans hdir.exhausted_iff.symm)⟩

/-! ## The page of one call -/

theorem rootPage_lt (man : PTableMan) : rootPage man < 2 ^ 52 := by
  have hroot := man.dirAddr.isLt
  unfold rootPage
  omega

/-- What the page numbers of a directory have in common. -/
theorem page_numbers (man : PTableMan) :
    rootPage man < 2 ^ 52 ∧ pageCount man < 2 ^ 52 ∧
      reach man = min (pageCount man) (2 ^ 52 - rootPage man) ∧
        endPage man = (rootPage man + pageCount man) % 2 ^ 52 := by
  have hsize := man.dirSize.isLt
  refine ⟨rootPage_lt man, ?_, rfl, rfl⟩
  unfold pageCount
  omega

theorem tablePage_of_lt (hgranted : j + 1 ≤ endPage man) (hnumber : j + 1 < 2 ^ 19) :
    tablePage man j = (rootPage man + (j + 1)) % 2 ^ 52 := by
  rw [tablePage, if_pos (by omega), tableOffset, if_pos (by omega)]
  omega

theorem tablePage_of_lt_reach (hgranted : j + 1 ≤ endPage man) (hreach : j + 1 < reach man)
    (hnumber : j + 1 < 2 ^ 19) : tablePage man j = rootPage man + (j + 1) := by
  have hbound := rootPage_add_reach_le man
  rw [tablePage_of_lt hgranted hnumber]
  omega

/-- From table `2^19` on the product is negative. -/
theorem tablePage_of_ge (hgranted : j + 1 ≤ endPage man) (hfrom : 2 ^ 19 ≤ j + 1)
    (hto : j + 1 < 2 ^ 20) :
    tablePage man j = (rootPage man + (2 ^ 52 - 2 ^ 20 + (j + 1))) % 2 ^ 52 := by
  rw [tablePage, if_pos (by omega), tableOffset, if_neg (by omega)]
  omega

theorem tablePage_denied (hover : endPage man < j + 1) (hnumber : j + 1 < 2 ^ 32) :
    tablePage man j = 0 := by
  rw [tablePage, if_neg (by omega)]

/-- After `2^32` steps `PDI` is back at 0, the number of the root. -/
theorem tablePage_root (hnumber : j + 1 = 2 ^ 32) : tablePage man j = rootPage man := by
  have hroot := rootPage_lt man
  rw [tablePage, if_pos (by omega), tableOffset, if_pos (by omega)]
  omega

theorem PageAllotted.of_fresh (hfrom : rootPage man < tablePage man j)
    (hto : tablePage man j < rootPage man + reach man)
    (hfresh : ∀ i < j, tablePage man i ≠ tablePage man j) : PageAllotted man j where
  placed _ := ⟨hfrom, hto, hfresh⟩
  exhausted := by
    constructor
    · intro hnull
      omega
    · intro hused
      obtain ⟨i, hi, hsame⟩ := hused _ hfrom hto
      exact absurd hsame (hfresh i hi)

/-- NULL is right once the pages of the region have been handed out in order. -/
theorem PageAllotted.of_null (hnull : tablePage man j = 0) (hused : reach man ≤ j + 1)
    (horder : ∀ i, i + 1 < reach man → tablePage man i = rootPage man + (i + 1)) :
    PageAllotted man j where
  placed htaken := absurd hnull htaken
  exhausted := by
    refine ⟨fun _ page hfrom hto => ⟨page - rootPage man - 1, by omega, ?_⟩, fun _ => hnull⟩
    rw [horder _ (by omega)]
    omega

/-- NULL is wrong while a page of the region is left. -/
theorem PageAllotted.ne_zero (hallotted : PageAllotted man j) (page : ℕ)
    (hfrom : rootPage man < page) (hto : page < rootPage man + reach man)
    (hunused : ∀ i < j, tablePage man i ≠ page) : tablePage man j ≠ 0 := by
  intro hnull
  obtain ⟨i, hi, hsame⟩ := hallotted.exhausted.mp hnull page hfrom hto
  exact hunused i hi hsame

theorem pageAllotted_of_lt (hgranted : j + 1 ≤ endPage man) (hreach : j + 1 < reach man)
    (hnumber : j + 1 < 2 ^ 19) : PageAllotted man j := by
  have hpage := tablePage_of_lt_reach hgranted hreach hnumber
  apply PageAllotted.of_fresh
  · omega
  · omega
  · intro i hi
    rw [hpage, tablePage_of_lt_reach (by omega) (by omega) (by omega)]
    omega

/-! ## When the results are right -/

/-- The numbers of calls that are served as they should be. -/
inductive Served (man : PTableMan) (calls : ℕ) : Prop where
  /-- Each call hands out the page after the last, and the region has more. -/
  | inOrder (hgranted : calls ≤ endPage man) (hreach : calls < reach man)
      (hnumber : calls < 2 ^ 19)
  | untouched (hcalls : calls = 0)
  /-- An empty region at 0 grants no table. -/
  | emptyAtZero (hroot : rootPage man = 0) (hcount : pageCount man = 0)
  /-- The table of an empty region in the last page wraps to 0. -/
  | emptyAtEnd (hroot : rootPage man = 2 ^ 52 - 1) (hcount : pageCount man = 0)
      (hcalls : calls ≤ 1)
  /-- Table `2^19` of the region of `2^31` bytes at `2^31` wraps to 0. -/
  | halfway (hroot : rootPage man = 2 ^ 19) (hcount : pageCount man = 2 ^ 19)
      (hcalls : calls ≤ 2 ^ 19)
  /-- The region is so large that the tables from `2^19` on lie in it too. -/
  | huge (hcount : 2 ^ 52 - 2 ^ 19 < pageCount man)
      (hend : rootPage man + pageCount man < 2 ^ 52)
      (hcalls : calls + 2 ^ 52 < pageCount man + 2 ^ 20)
  /-- The region wraps, and the table at `2^64` has address 0. -/
  | wrapped (hend : 2 ^ 52 ≤ rootPage man + pageCount man) (hgranted : reach man ≤ endPage man)
      (hnumber : reach man < 2 ^ 19) (hcalls : calls ≤ reach man)
  /-- The region wraps, and the capacity test ends where the pages do. -/
  | spent (hend : 2 ^ 52 ≤ rootPage man + pageCount man)
      (hlast : endPage man + 1 = reach man ∧ reach man ≤ 2 ^ 19 ∨
        endPage man = reach man ∧ reach man < 2 ^ 19) (hcalls : calls < 2 ^ 32)

theorem pageAllotted_of_served (hserved : Served man calls) (hj : j < calls) :
    PageAllotted man j := by
  obtain ⟨hbound, -, hreach, htest⟩ := page_numbers man
  cases hserved with
  | inOrder hgranted hlast hnumber =>
      exact pageAllotted_of_lt (by omega) (by omega) (by omega)
  | untouched hcalls => omega
  | emptyAtZero hroot hcount =>
      have hnull : tablePage man j = 0 := by
        unfold tablePage
        split_ifs with hgranted
        · rw [tableOffset, if_pos (by omega)]
          omega
        · rfl
      exact PageAllotted.of_null hnull (by omega) fun i hi => by omega
  | emptyAtEnd hroot hcount hcalls =>
      obtain rfl : j = 0 := by omega
      have hnull : tablePage man 0 = 0 := by
        rw [tablePage_of_lt (by omega) (by omega)]
        omega
      exact PageAllotted.of_null hnull (by omega) fun i hi => by omega
  | halfway hroot hcount hcalls =>
      by_cases hlast : j + 1 < 2 ^ 19
      · exact pageAllotted_of_lt (by omega) (by omega) hlast
      · have hnull : tablePage man j = 0 := by
          rw [tablePage_of_ge (by omega) (by omega) (by omega)]
          omega
        exact PageAllotted.of_null hnull (by omega) fun i hi =>
          tablePage_of_lt_reach (by omega) hi (by omega)
  | huge hcount hend hcalls =>
      by_cases hlow : j + 1 < 2 ^ 19
      · exact pageAllotted_of_lt (by omega) (by omega) hlow
      · have hpage : tablePage man j = _ := tablePage_of_ge (by omega) (by omega) (by omega)
        apply PageAllotted.of_fresh
        · omega
        · omega
        · intro i hi
          by_cases hearlier : i + 1 < 2 ^ 19
          · rw [tablePage_of_lt_reach (by omega) (by omega) hearlier]
            omega
          · rw [tablePage_of_ge (by omega) (by omega) (by omega)]
            omega
  | wrapped hend hgranted hnumber hcalls =>
      by_cases hlast : j + 1 < reach man
      · exact pageAllotted_of_lt (by omega) hlast (by omega)
      · have hnull : tablePage man j = 0 := by
          rw [tablePage_of_lt (by omega) (by omega)]
          omega
        exact PageAllotted.of_null hnull (by omega) fun i hi =>
          tablePage_of_lt_reach (by omega) hi (by omega)
  | spent hend hlast hcalls =>
      by_cases hnext : j + 1 < reach man
      · exact pageAllotted_of_lt (by omega) hnext (by omega)
      · have hnull : tablePage man j = 0 := by
          by_cases hgranted : j + 1 ≤ endPage man
          · rw [tablePage_of_lt hgranted (by omega)]
            omega
          · exact tablePage_denied (by omega) (by omega)
        exact PageAllotted.of_null hnull (by omega) fun i hi =>
          tablePage_of_lt_reach (by omega) hi (by omega)

section Converse

variable (hall : ∀ j < calls, PageAllotted man j)

include hall

/-- NULL from the capacity test is wrong while the region has another page. -/
theorem calls_le_endPage (hleft : endPage man + 1 < reach man) (hnumber : endPage man < 2 ^ 19) :
    calls ≤ endPage man := by
  by_contra hcalls
  have hnull : tablePage man (endPage man) = 0 := tablePage_denied (by omega) (by omega)
  refine (hall (endPage man) (by omega)).ne_zero (rootPage man + (endPage man + 1))
    (by omega) (by omega) (fun i hi => ?_) hnull
  by_cases hlow : i + 1 < 2 ^ 19
  · rw [tablePage_of_lt_reach (by omega) (by omega) hlow]
    omega
  · omega

/-- Once the tables have used the region up, call `2^32` hands out the root. -/
theorem calls_lt_of_root (hroot : rootPage man ≠ 0) : calls < 2 ^ 32 := by
  by_contra hcalls
  have hpage : tablePage man (2 ^ 32 - 1) = rootPage man := tablePage_root (by omega)
  have hplaced := ((hall (2 ^ 32 - 1) (by omega)).placed (by omega)).1
  omega

theorem served_of_empty (hempty : pageCount man = 0) (hcalls : calls ≠ 0) :
    Served man calls := by
  obtain ⟨hbound, -, hreach, htest⟩ := page_numbers man
  by_cases hzero : rootPage man = 0
  · exact .emptyAtZero hzero hempty
  · have hfirst : tablePage man 0 = _ := tablePage_of_lt (by omega) (by omega)
    have hlast : rootPage man = 2 ^ 52 - 1 := by
      have hplaced := (hall 0 (by omega)).placed
      omega
    have hnext : tablePage man 1 = _ := tablePage_of_lt (by omega) (by omega)
    refine .emptyAtEnd hlast hempty (Nat.le_of_not_lt fun hmore => ?_)
    have hplaced := (hall 1 hmore).placed
    omega

/-- A region of fewer than `2^19` pages that the capacity test grants. -/
theorem served_of_small (hcount : 0 < reach man) (hsmall : reach man < 2 ^ 19)
    (hgranted : reach man ≤ endPage man) (hcalls : reach man ≤ calls) : Served man calls := by
  obtain ⟨hbound, -, hreach, htest⟩ := page_numbers man
  have hbehind : tablePage man (reach man - 1) = _ := tablePage_of_lt (by omega) (by omega)
  have hwraps : 2 ^ 52 ≤ rootPage man + pageCount man := by
    have hplaced := (hall (reach man - 1) (by omega)).placed
    omega
  by_cases hmore : calls = reach man
  · exact .wrapped hwraps hgranted hsmall hmore.le
  · by_cases hlast : endPage man = reach man
    · exact .spent hwraps (Or.inr ⟨hlast, hsmall⟩) (calls_lt_of_root hall (by omega))
    · -- Table `reach + 1` is page 1, or wraps below the root when it is number `2^19`.
      have hplaced := (hall (reach man) (by omega)).placed
      by_cases hlow : reach man + 1 < 2 ^ 19
      · have hpage : tablePage man (reach man) = _ := tablePage_of_lt (by omega) hlow
        omega
      · have hpage : tablePage man (reach man) = _ :=
          tablePage_of_ge (by omega) (by omega) (by omega)
        omega

/-- A region of `2^19` pages or more, and a call for table `2^19`. -/
theorem served_of_large (hlarge : 2 ^ 19 ≤ reach man) (hgranted : 2 ^ 19 ≤ endPage man)
    (hcalls : 2 ^ 19 ≤ calls) : Served man calls := by
  obtain ⟨hbound, hcount, hreach, htest⟩ := page_numbers man
  have hcall := hall (2 ^ 19 - 1) (by omega)
  have hpage : tablePage man (2 ^ 19 - 1) = _ := tablePage_of_ge (by omega) (by omega) (by omega)
  by_cases hnull : tablePage man (2 ^ 19 - 1) = 0
  · have hroot : rootPage man = 2 ^ 19 := by omega
    have hcount : pageCount man = 2 ^ 19 := by
      by_contra hmore
      refine hcall.ne_zero (rootPage man + 2 ^ 19) (by omega) (by omega) (fun i hi => ?_)
        hnull
      rw [tablePage_of_lt_reach (by omega) (by omega) (by omega)]
      omega
    refine .halfway hroot hcount (Nat.le_of_not_lt fun hmore => ?_)
    have hplaced := (hall (2 ^ 19) hmore).placed
    have hnext : tablePage man (2 ^ 19) = _ := tablePage_of_ge (by omega) (by omega) (by omega)
    omega
  · obtain ⟨hfrom, hto, -⟩ := hcall.placed hnull
    have hlow : rootPage man < 2 ^ 19 := by omega
    have hinside : rootPage man + pageCount man < 2 ^ 52 := by omega
    refine .huge (by omega) hinside (Nat.lt_of_not_le fun hmore => ?_)
    have hlast := (hall (pageCount man + 2 ^ 20 - 2 ^ 52 - 1) (by omega)).placed
    rw [tablePage_of_ge (by omega) (by omega) (by omega)] at hlast
    omega

theorem served_of_pageAllotted : Served man calls := by
  obtain ⟨hbound, -, hreach, htest⟩ := page_numbers man
  by_cases horder : calls ≤ endPage man ∧ calls < reach man ∧ calls < 2 ^ 19
  · exact .inOrder horder.1 horder.2.1 horder.2.2
  by_cases hcalls : calls = 0
  · exact .untouched hcalls
  by_cases hempty : pageCount man = 0
  · exact served_of_empty hall hempty hcalls
  by_cases hdenied : endPage man + 1 < reach man ∧ endPage man < 2 ^ 19
  · have hle := calls_le_endPage hall hdenied.1 hdenied.2
    omega
  by_cases hlast : endPage man + 1 = reach man ∧ reach man ≤ 2 ^ 19
  · exact .spent (by omega) (Or.inl hlast) (calls_lt_of_root hall (by omega))
  by_cases hsmall : reach man < 2 ^ 19
  · exact served_of_small hall (by omega) hsmall (by omega) (by omega)
  · exact served_of_large hall (by omega) (by omega) (by omega)

end Converse

/-- The results of a run of `allocateEntry` are right exactly for the served numbers of
calls. -/
theorem allotted_iff (hdir : Directory man) (hPDI : s.PDI = 0) (calls : ℕ) :
    AllAllotted man (allocateAll man s calls).1 ↔ Served man calls := by
  rw [(allocateAll_eq hPDI calls).1, allAllotted_iff]
  simp only [hdir.allotted_iff_pages]
  exact ⟨served_of_pageAllotted, fun hserved j hj => pageAllotted_of_served hserved hj⟩

theorem allotted_one_of_two :
    AllAllotted ⟨0x100000, 0x2000⟩ (allocateAll ⟨0x100000, 0x2000⟩ (unmapped fun _ => 0) 1).1 :=
  (allotted_iff ⟨by decide, by decide⟩ rfl 1).mpr (.inOrder (by decide) (by decide) (by decide))

/-- A region of two pages: the second call should give NULL and hands out the page
behind the region. -/
theorem page_behind_region :
    ¬ AllAllotted ⟨0x100000, 0x2000⟩
      (allocateAll ⟨0x100000, 0x2000⟩ (unmapped fun _ => 0) 2).1 := by
  intro hall
  have htable := (hall [0x101000] 0x102000 [] rfl).placed (by decide)
  exact absurd htable.1.finish (by decide)

end RedX.DirectoryBounds
