import RedX.Core.RadixTree
import RedX.Paging.PTableMan

/-!
# Page tables as a radix tree

The page directory is an array of 64-bit words, and while it has room the words
lay out a radix tree with 512 children for each node: `map` grows the path to
the virtual page and assigns its leaf.  `map_represents` is that simulation; the
step lemmas before it do one level at a time.
-/

namespace RedX.PageTree

open RedX.MachineWord
open RedX.ByteMemory
open RedX.WordArray
open RedX.RadixTree
open RedX.TableEntry
open RedX.PageTables

/-! ## The directory region -/

/-- Address of table `k` of the directory; the root is table 0. -/
def tableAddr (man : PTableMan) (k : ℕ) : Word64 := slot man.dirAddr (512 * k)

@[simp]
theorem tableAddr_zero (man : PTableMan) : tableAddr man 0 = man.dirAddr := by
  simp [tableAddr, slot]

def region (man : PTableMan) : Set Word64 :=
  {address | man.dirAddr.toNat ≤ address.toNat ∧
    address.toNat < man.dirAddr.toNat + man.dirSize.toNat}

/-- The bytes of the root and of the first `count` tables. -/
def tables (man : PTableMan) (count : ℕ) : Set Word64 := words man.dirAddr 0 (512 * (count + 1))

/-- The aligned directory region holds the root and `count` tables below `2^40`, and
`allocateEntry` can number and grant them. -/
structure Room (man : PTableMan) (count : ℕ) : Prop where
  aligned : man.dirAddr.toNat % 4096 = 0
  inside : 4096 * (count + 1) ≤ man.dirSize.toNat
  low : man.dirAddr.toNat + 4096 * (count + 1) ≤ 2 ^ 40
  numbered : count < 2 ^ 19
  granted : count ≤ ((man.dirAddr + man.dirSize) / 0x1000).toNat

variable {man : PTableMan} {count k : ℕ}

theorem Room.mono (hroom : Room man count) (hle : k ≤ count) : Room man k where
  aligned := hroom.aligned
  inside := (by omega : 4096 * (k + 1) ≤ 4096 * (count + 1)).trans hroom.inside
  low := (Nat.add_le_add_left (by omega) _).trans hroom.low
  numbered := hle.trans_lt hroom.numbered
  granted := hle.trans hroom.granted

theorem Room.toNat_tableAddr (hroom : Room man count) (hk : k ≤ count) :
    (tableAddr man k).toNat = man.dirAddr.toNat + 4096 * k := by
  have hlow := hroom.low
  rw [tableAddr, slot, BitVec.toNat_add, BitVec.toNat_ofNat]
  omega

theorem Room.pageAlign_tableAddr (hroom : Room man count) (hk : k ≤ count) :
    pageAlign (tableAddr man k) = tableAddr man k := by
  have haligned := hroom.aligned
  apply BitVec.eq_of_toNat_eq
  rw [toNat_pageAlign, hroom.toNat_tableAddr hk]
  omega

theorem Room.getAddr_pointTo (hroom : Room man count) (hk : k ≤ count) (entry : DirEntry) :
    (entry.pointTo (tableAddr man k)).getAddr = tableAddr man k := by
  have hlow := hroom.low
  rw [TableEntry.getAddr_pointTo, hroom.pageAlign_tableAddr hk]
  rw [hroom.toNat_tableAddr hk]
  omega

theorem Room.tables_subset (hroom : Room man count) : tables man count ⊆ region man := by
  intro address hmem
  have hlow := hroom.low
  have hinside := hroom.inside
  have haddress := address.isLt
  simp only [tables, words, Set.mem_ofPred_eq, offset, BitVec.toNat_sub] at hmem
  simp only [region, Set.mem_ofPred_eq]
  omega

theorem tables_subset_tables {more : ℕ} (hle : count ≤ more) :
    tables man count ⊆ tables man more := by
  intro address hmem
  exact ⟨hmem.1, hmem.2.trans_le (by omega)⟩

/-- A directory below `0x1fff00` is apart from the console without a screen. -/
theorem disjoint_headless (hend : man.dirAddr.toNat + man.dirSize.toNat ≤ 0x1fff00) :
    Disjoint (region man) headless.touched := by
  rw [Set.disjoint_left]
  intro address hregion htouched
  have hplace := toNat_of_mem_headless htouched
  have hlast := hregion.2
  omega

theorem toNat_shift_twelve {word : Word32} (hsmall : word.toNat < 2 ^ 19) :
    ((word * 0x1000).signExtend 64).toNat = 4096 * word.toNat := by
  have hproduct : (word * 0x1000).toNat = 4096 * word.toNat := by
    rw [BitVec.toNat_mul]
    change word.toNat * 4096 % 2 ^ 32 = _
    omega
  rw [toNat_signExtend_of_lt (by omega), hproduct]

/-- While the directory has room, `allocateEntry` hands out its tables in order. -/
theorem Room.entryAt {PDI : Word32} (hroom : Room man PDI.toNat) :
    man.entryAt PDI = tableAddr man PDI.toNat := by
  have hsmall := hroom.numbered
  have hgranted := hroom.granted
  have hindex : ¬ PDI.signExtend 64 > (man.dirAddr + man.dirSize) / 0x1000 := by
    rw [gt_iff_lt, BitVec.lt_def, toNat_signExtend_of_lt (by omega)]
    omega
  have hoffset : (PDI * 0x1000).signExtend 64 = BitVec.ofNat 64 (8 * (512 * PDI.toNat)) := by
    apply BitVec.eq_of_toNat_eq
    rw [toNat_shift_twelve hsmall, BitVec.toNat_ofNat]
    omega
  rw [PTableMan.entryAt, if_neg hindex, hoffset]
  rfl

/-! ## The tree that the words hold -/

/-- Word `index` of the directory. -/
def cells (man : PTableMan) (memory : Memory) (index : ℕ) : Word64 :=
  wordAt memory man.dirAddr index

theorem cells_unmapped (man : PTableMan) (index : ℕ) :
    cells man (unmapped fun _ => 0).memory index = 0 := by
  change load64 (fun _ => 0) (slot man.dirAddr index) = 0
  apply load64_of_bytes
  intro byte _
  simp [byteOf]

/-- An entry before it is first used: the root keeps what it held at the start, every
other table is cleared. -/
def unused (root : ℕ → Word64) (level index : ℕ) : DirEntry :=
  ⟨if level = 0 then root index else 0⟩

/-- An entry that leads to `child`. -/
def link (root : ℕ → Word64) (level index : ℕ) (child : Option Word64) : Word64 :=
  (child.elim (unused root level index) (unused root level index).pointTo).V

/-- The words hold the tree, and `PDI` counts its tables. -/
structure Represents (man : PTableMan) (root : ℕ → Word64) (placement : Placement 512)
    (leaf : ℕ → Option Word64) (s : Kernel) : Prop where
  layout : Layout 3 (link root) (tableAddr man) placement leaf (cells man s.memory)
  count_eq : s.PDI.toNat = placement.count

/-- No entry of the root is present. -/
def NonePresent (root : ℕ → Word64) : Prop := ∀ index < 512, (root index).getLsbD 0 = false

theorem link_present {root : ℕ → Word64} {level index : ℕ} (child : Option Word64)
    (hroot : NonePresent root) (hindex : index < 512) :
    (link root level index child).getLsbD 0 = child.isSome := by
  cases child with
  | some address =>
      change ((unused root level index).pointTo address).V.getLsbD 0 = _
      rw [getLsbD_pointTo _ _ (by omega)]
      rfl
  | none =>
      change (if level = 0 then root index else 0 : Word64).getLsbD 0 = false
      split_ifs
      · exact hroot index hindex
      · rfl

/-- Linking an entry again forgets where it led before. -/
theorem pointTo_link (root : ℕ → Word64) (level index : ℕ) (child : Option Word64)
    (address : Word64) :
    (DirEntry.pointTo ⟨link root level index child⟩ address).V =
      link root level index (some address) := by
  cases child with
  | some old => exact congrArg DirEntry.V (pointTo_pointTo (unused root level index) old address)
  | none => rfl

section Step

variable {root : ℕ → Word64} {placement : Placement 512} {leaf : ℕ → Option Word64}
  {s : Kernel} {level key : ℕ} {index : Word64}

theorem slot_index (man : PTableMan) (k : ℕ) (index : Word64) :
    tableAddr man k + index * 8 = slot man.dirAddr (512 * k + index.toNat) := by
  apply BitVec.eq_of_toNat_eq
  rw [tableAddr, slot, slot, BitVec.toNat_add, BitVec.toNat_add, BitVec.toNat_add,
    BitVec.toNat_mul, BitVec.toNat_ofNat, BitVec.toNat_ofNat]
  change (_ + index.toNat * 8 % 2 ^ 64) % 2 ^ 64 = _
  omega

theorem entry_tableAddr (s : Kernel) (k : ℕ) (index : Word64) :
    s.entry (tableAddr man k) index = ⟨cells man s.memory (512 * k + index.toNat)⟩ := by
  rw [Kernel.entry, slot_index, cells, wordAt]

theorem cells_putEntry (s : Kernel) (entry : DirEntry) {other : ℕ}
    (hk : 8 * (512 * k + index.toNat) + 8 ≤ 2 ^ 64) (hother : 8 * other + 8 ≤ 2 ^ 64) :
    cells man (s.putEntry (tableAddr man k) index entry).memory other =
      if other = 512 * k + index.toNat then entry.V else cells man s.memory other := by
  rw [Kernel.putEntry, slot_index, memory_withMemory, cells, wordAt_store64 _ _ _ hk hother, cells]

theorem putEntry_agreeOutside (s : Kernel) (entry : DirEntry) (hroom : Room man count)
    (hk : k ≤ count) (hindex : index.toNat < 512) :
    AgreeOutside (tables man count) s.memory
      (s.putEntry (tableAddr man k) index entry).memory := by
  have hsmall := hroom.numbered
  rw [Kernel.putEntry, slot_index, memory_withMemory]
  apply (store64_agreeOutside s.memory man.dirAddr entry.V (by omega)).mono
  intro address hmem
  simp only [tables, words, Set.mem_ofPred_eq] at hmem ⊢
  omega

/-- The entry read on the way to a page. -/
theorem Represents.entry (hrep : Represents man root placement leaf s) (hlevel : level ≤ 3)
    (htable : placement.table level (prefixAt 512 3 level key) = some k)
    (hindex : index.toNat = digitAt 512 3 level key) :
    s.entry (tableAddr man k) index = ⟨link root level (digitAt 512 3 level key)
      (target 3 (tableAddr man) placement leaf (level + 1) (prefixAt 512 3 (level + 1) key))⟩ := by
  rw [entry_tableAddr, hindex, hrep.layout.cell_prefix (by omega) hlevel htable]

/-- An entry of the root leads to its table as soon as there is one. -/
theorem Represents.cells_root (hrep : Represents man root placement leaf s) {index : ℕ}
    (hindex : index < 512) (htable : placement.table 1 index = some k) :
    cells man s.memory index = (DirEntry.pointTo ⟨root index⟩ (tableAddr man k)).V := by
  have hentry := hrep.layout.cell (Nat.zero_le 3) placement.root hindex
  rw [Nat.mul_zero, Nat.zero_add, target, if_pos (by omega), htable] at hentry
  exact hentry

/-- The entry read on the way to a page is present exactly if the tree goes on. -/
theorem Represents.get_entry (hrep : Represents man root placement leaf s)
    (hroot : NonePresent root) (hlevel : level + 1 ≤ 3)
    (htable : placement.table level (prefixAt 512 3 level key) = some k)
    (hindex : index.toNat = digitAt 512 3 level key) :
    (s.entry (tableAddr man k) index).get .P =
      (placement.table (level + 1) (prefixAt 512 3 (level + 1) key)).isSome := by
  rw [get_eq, hrep.entry (by omega) htable hindex,
    link_present _ hroot (digitAt_lt (by omega)), target, if_pos hlevel, Option.isSome_map]

/-- A table that exists is followed. -/
theorem nextTable_follow (hrep : Represents man root placement leaf s) (hroot : NonePresent root)
    (hroom : Room man placement.count) (hlevel : level + 1 ≤ 3)
    (htable : placement.table level (prefixAt 512 3 level key) = some k)
    (hindex : index.toNat = digitAt 512 3 level key) {next : ℕ}
    (hnext : placement.table (level + 1) (prefixAt 512 3 (level + 1) key) = some next) :
    man.nextTable (tableAddr man k) index s = (tableAddr man next, s) := by
  have hpresent := hrep.get_entry hroot hlevel htable hindex
  rw [hnext, Option.isSome_some] at hpresent
  rw [PTableMan.nextTable, hpresent]
  refine Prod.ext ?_ rfl
  change (s.entry (tableAddr man k) index).getAddr = _
  rw [hrep.entry (by omega) htable hindex, target, if_pos hlevel, hnext]
  exact hroom.getAddr_pointTo (placement.bounded hnext) _

/-- A table that does not exist is created at the next address of the directory. -/
theorem nextTable_create (hrep : Represents man root placement leaf s) (hroot : NonePresent root)
    (hlevel : level + 1 ≤ 3)
    (htable : placement.table level (prefixAt 512 3 level key) = some k)
    (hindex : index.toNat = digitAt 512 3 level key)
    (hnext : placement.table (level + 1) (prefixAt 512 3 (level + 1) key) = none) :
    man.nextTable (tableAddr man k) index s =
      let next := man.entryAt (s.PDI + 1)
      let s' := { s with PDI := s.PDI + 1 }
      (next, (s'.withMemory (set s.memory next 0 0x1000)).putEntry (tableAddr man k) index
        ((s.entry (tableAddr man k) index).pointTo next)) := by
  have habsent := hrep.get_entry hroot hlevel htable hindex
  rw [hnext, Option.isSome_none] at habsent
  rw [PTableMan.nextTable, habsent]
  rfl

/-- The number of tables after the step, whether or not there is room. -/
theorem nextTable_PDI (hrep : Represents man root placement leaf s) (hroot : NonePresent root)
    (hroom : Room man placement.count) (hlevel : level + 1 ≤ 3)
    (htable : placement.table level (prefixAt 512 3 level key) = some k)
    (hindex : index.toNat = digitAt 512 3 level key) :
    (man.nextTable (tableAddr man k) index s).2.PDI.toNat =
      (placement.grow level (prefixAt 512 3 (level + 1) key)).count := by
  cases hnext : placement.table (level + 1) (prefixAt 512 3 (level + 1) key) with
  | some next =>
      rw [nextTable_follow hrep hroot hroom hlevel htable hindex hnext,
        grow_of_isSome (by simp [hnext])]
      exact hrep.count_eq
  | none =>
      have hparent : (placement.table level (prefixAt 512 3 (level + 1) key / 512)).isSome := by
        rw [prefixAt_succ_div (by omega) (by omega), htable]
        rfl
      have hsmall := hroom.numbered
      rw [nextTable_create hrep hroot hlevel htable hindex hnext, (grow_of_none hparent hnext).1]
      change (s.PDI + 1).toNat = _
      rw [BitVec.toNat_add, hrep.count_eq]
      change (placement.count + 1) % 2 ^ 32 = _
      omega

theorem cells_set (hroom : Room man count) (hk : k ≤ count) (memory : Memory) {other : ℕ}
    (hother : 8 * other + 8 ≤ 2 ^ 64) :
    cells man (set memory (tableAddr man k) 0 0x1000) other =
      if 512 * k ≤ other ∧ other < 512 * k + 512 then 0 else cells man memory other := by
  have hsmall := hroom.numbered
  rw [set_eq_store]
  exact wordAt_clearWords memory man.dirAddr (512 * k) 512 (by omega) hother

theorem set_agreeOutside (hroom : Room man count) (hk : k ≤ count) (memory : Memory) :
    AgreeOutside (tables man count) memory (set memory (tableAddr man k) 0 0x1000) := by
  have hsmall := hroom.numbered
  rw [set_eq_store]
  apply (clearWords_agreeOutside memory man.dirAddr (512 * k) 512 (by omega)).mono
  intro address hmem
  simp only [tables, words, Set.mem_ofPred_eq] at hmem ⊢
  omega

/-- The kernel after a table has been created at the next address of the directory and linked
from entry `index` of table `k`. -/
def created (man : PTableMan) (s : Kernel) (k count : ℕ) (index : Word64) : Kernel :=
  let s' : Kernel := { s with PDI := s.PDI + 1 }
  (s'.withMemory (set s.memory (tableAddr man (count + 1)) 0 0x1000)).putEntry (tableAddr man k)
    index ((s.entry (tableAddr man k) index).pointTo (tableAddr man (count + 1)))

theorem toNat_PDI_succ (hroom : Room man (count + 1)) (hcount : s.PDI.toNat = count) :
    (s.PDI + 1).toNat = count + 1 := by
  have hsmall := hroom.numbered
  rw [BitVec.toNat_add, hcount]
  change (count + 1) % 2 ^ 32 = _
  omega

/-- With room for the table, `nextTable` creates it there. -/
theorem nextTable_created (hrep : Represents man root placement leaf s) (hroot : NonePresent root)
    (hroom : Room man (placement.count + 1)) (hlevel : level + 1 ≤ 3)
    (htable : placement.table level (prefixAt 512 3 level key) = some k)
    (hindex : index.toNat = digitAt 512 3 level key)
    (hnext : placement.table (level + 1) (prefixAt 512 3 (level + 1) key) = none) :
    man.nextTable (tableAddr man k) index s =
      (tableAddr man (placement.count + 1), created man s k placement.count index) := by
  have hPDI := toNat_PDI_succ hroom hrep.count_eq
  have hentryAt : man.entryAt (s.PDI + 1) = tableAddr man (placement.count + 1) := by
    rw [Room.entryAt (by rw [hPDI]; exact hroom), hPDI]
  have hcreate := nextTable_create hrep hroot hlevel htable hindex hnext
  rw [hentryAt] at hcreate
  exact hcreate

theorem cells_created (hroom : Room man (count + 1)) (hk : k ≤ count) (hindex : index.toNat < 512)
    {other : ℕ} (hother : 8 * other + 8 ≤ 2 ^ 64) :
    cells man (created man s k count index).memory other =
      if other = 512 * k + index.toNat then
        ((s.entry (tableAddr man k) index).pointTo (tableAddr man (count + 1))).V
      else if 512 * (count + 1) ≤ other ∧ other < 512 * (count + 1) + 512 then 0
      else cells man s.memory other := by
  have hsmall := hroom.numbered
  rw [created, cells_putEntry _ _ (by omega) hother, memory_withMemory,
    cells_set hroom le_rfl _ hother]

theorem created_agreeOutside (hroom : Room man (count + 1)) (hk : k ≤ count)
    (hindex : index.toNat < 512) :
    AgreeOutside (tables man (count + 1)) s.memory (created man s k count index).memory :=
  (set_agreeOutside hroom le_rfl s.memory).trans
    (putEntry_agreeOutside _ _ hroom (hk.trans (Nat.le_succ _)) hindex)

/-- The tree with the new table is held. -/
theorem represents_created (hrep : Represents man root placement leaf s)
    (hroom : Room man (placement.count + 1)) (hlevel : level + 1 ≤ 3)
    (htable : placement.table level (prefixAt 512 3 level key) = some k)
    (hindex : index.toNat = digitAt 512 3 level key)
    (hnext : placement.table (level + 1) (prefixAt 512 3 (level + 1) key) = none)
    (hcount : (placement.grow level (prefixAt 512 3 (level + 1) key)).count =
      placement.count + 1) :
    Represents man root (placement.grow level (prefixAt 512 3 (level + 1) key)) leaf
      (created man s k placement.count index) := by
  have hsmall := hroom.numbered
  have hkle := placement.bounded htable
  have hdigit : digitAt 512 3 level key < 512 := digitAt_lt (by omega)
  have hlt : index.toNat < 512 := hindex ▸ hdigit
  have hnode : prefixAt 512 3 (level + 1) key =
      512 * prefixAt 512 3 level key + digitAt 512 3 level key :=
    prefixAt_succ (by omega)
  have hentry := hrep.entry (by omega) htable hindex
  constructor
  · rw [hnode] at hnext ⊢
    apply hrep.layout.create hlevel htable hdigit hnext
    · rw [cells_created hroom hkle hlt (by omega), if_pos (by omega), hentry, pointTo_link]
    · intro index' hindex'
      rw [cells_created hroom hkle hlt (by omega), if_neg (by omega), if_pos (by omega)]
      rfl
    · intro k' hk' index' hindex' hne
      rw [cells_created hroom hkle hlt (by omega), if_neg (by omega), if_neg (by omega)]
  · rw [hcount]
    exact toNat_PDI_succ hroom hrep.count_eq

/-- How far a call has come when it has reached `level` on the way to a page: the tree
with that node is held, `step` names its table, and only tables were written. -/
structure Descent (man : PTableMan) (root : ℕ → Word64) (leaf : ℕ → Option Word64)
    (start : Memory) (key level : ℕ) (placement : Placement 512) (step : Word64 × Kernel) :
    Prop where
  represents : Represents man root placement leaf step.2
  reached : ∃ k, placement.table level (prefixAt 512 3 level key) = some k ∧
    step.1 = tableAddr man k
  frame : AgreeOutside (tables man placement.count) start step.2.memory

variable {start : Memory} {step : Word64 × Kernel}

/-- The number of tables after one more level, whether or not there is room. -/
theorem Descent.PDI_next (hdescent : Descent man root leaf start key level placement step)
    (hroot : NonePresent root) (hroom : Room man placement.count) (hlevel : level + 1 ≤ 3)
    (hindex : index.toNat = digitAt 512 3 level key) :
    (man.nextTable step.1 index step.2).2.PDI.toNat =
      (placement.grow level (prefixAt 512 3 (level + 1) key)).count := by
  obtain ⟨k, htable, haddr⟩ := hdescent.reached
  rw [haddr]
  exact nextTable_PDI hdescent.represents hroot hroom hlevel htable hindex

/-- One level of `map` grows the tree by the node on the way to the page. -/
theorem Descent.next (hdescent : Descent man root leaf start key level placement step)
    (hroot : NonePresent root) (hlevel : level + 1 ≤ 3)
    (hindex : index.toNat = digitAt 512 3 level key)
    (hroom : Room man (placement.grow level (prefixAt 512 3 (level + 1) key)).count) :
    Descent man root leaf start key (level + 1)
      (placement.grow level (prefixAt 512 3 (level + 1) key))
      (man.nextTable step.1 index step.2) := by
  obtain ⟨address, s⟩ := step
  obtain ⟨hrep, ⟨k, htable, haddr⟩, hframe⟩ := hdescent
  change address = _ at haddr
  change Represents man root placement leaf s at hrep
  subst haddr
  have hroom' := hroom.mono (count_le_grow placement level _)
  cases hnext : placement.table (level + 1) (prefixAt 512 3 (level + 1) key) with
  | some next =>
      rw [grow_of_isSome (by simp [hnext]),
        nextTable_follow hrep hroot hroom' hlevel htable hindex hnext]
      exact ⟨hrep, ⟨next, hnext, rfl⟩, hframe⟩
  | none =>
      have hparent : (placement.table level (prefixAt 512 3 (level + 1) key / 512)).isSome := by
        rw [prefixAt_succ_div (by omega) (by omega), htable]
        rfl
      obtain ⟨hcount, hgrown⟩ := grow_of_none hparent hnext
      have hkle := placement.bounded htable
      have hdigit : index.toNat < 512 := hindex ▸ digitAt_lt (by omega)
      rw [hcount] at hroom
      rw [nextTable_created hrep hroot hroom hlevel htable hindex hnext]
      refine ⟨represents_created hrep hroom hlevel htable hindex hnext hcount,
        ⟨placement.count + 1, ?_, rfl⟩, ?_⟩
      · rw [hgrown, if_pos ⟨rfl, rfl⟩]
      · rw [hcount]
        exact (hframe.mono (tables_subset_tables (Nat.le_succ _))).trans
          (created_agreeOutside hroom hkle hdigit)

/-- The last write of `map` sets the leaf of the page. -/
theorem Descent.assign (hdescent : Descent man root leaf start key 3 placement step)
    (hroom : Room man placement.count) (hindex : index.toNat = key % 512) (frame : Word64) :
    let written := step.2.putEntry step.1 index ((step.2.entry step.1 index).pointTo frame)
    Represents man root placement (Function.update leaf key (some frame)) written ∧
    AgreeOutside (tables man placement.count) start written.memory := by
  intro written
  obtain ⟨hrep, ⟨k, htable, haddr⟩, hframe⟩ := hdescent
  have hsmall := hroom.numbered
  have hkle := placement.bounded htable
  have hdigit : digitAt 512 3 3 key = key % 512 := by simp [digitAt]
  have hleading : prefixAt 512 3 3 key = key / 512 := by simp [prefixAt]
  have hlt : key % 512 < 512 := Nat.mod_lt _ (by omega)
  have hwritten : written = step.2.putEntry (tableAddr man k) index
      ((step.2.entry (tableAddr man k) index).pointTo frame) := by
    rw [← haddr]
  have hentry := hrep.entry le_rfl htable (hindex.trans hdigit.symm)
  rw [hwritten]
  refine ⟨⟨hrep.layout.assign (by omega) (hleading ▸ htable) ?_ ?_, hrep.count_eq⟩, ?_⟩
  · rw [cells_putEntry _ _ (by omega) (by omega), if_pos (by omega), hentry, pointTo_link, hdigit]
  · intro k' hk' index' hindex' hne
    rw [cells_putEntry _ _ (by omega) (by omega), if_neg (by omega)]
  · exact hframe.trans (putEntry_agreeOutside _ _ hroom hkle (by omega))

end Step

end RedX.PageTree
