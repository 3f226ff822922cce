import RedX.Paging.Translation

/-!
# What the root page held before

`pTableMan::init` does not clear the root, so its first entries are whatever the
page held.  `map` stays inside the directory region, and pages that were never
mapped stay unmapped, for every content of the rest of memory exactly if no
entry of the root was present.
-/

namespace RedX.StaleRoot

open RedX.MachineWord
open RedX.ByteMemory
open RedX.WordArray
open RedX.RadixTree
open RedX.TableEntry
open RedX.PageTables
open RedX.PageTree
open RedX.MapRun
open RedX.Translation

/-- What the report of a call may write: nothing if the frame is locked. -/
def reportWrites (console : Console) (s : Kernel) (physicalMemory : Word64) : Set Word64 :=
  if s.allocator.pageBitmap.get s.memory (pageAlign physicalMemory / 0x1000) = true then ∅
  else console.touched

/-- A call follows tables of the region only and, its report apart, writes there only. -/
structure CallConfined (console : Console) (man : PTableMan)
    (virtualMemory physicalMemory : Word64) (s : Kernel) : Prop where
  followed : ∀ table ∈ man.followed console virtualMemory physicalMemory s,
    man.dirAddr.toNat ≤ table.toNat ∧
      table.toNat + 4096 ≤ man.dirAddr.toNat + man.dirSize.toNat
  written : AgreeOutside (region man ∪ reportWrites console s physicalMemory) s.memory
    (man.map console virtualMemory physicalMemory s).memory

/-- Every call of the run is confined, and in the end the walk of a page that was never
mapped ends at an entry that is not present. -/
structure Confined (console : Console) (man : PTableMan) (s : Kernel) (calls : List Call) :
    Prop where
  call : ∀ past call, past ++ [call] <+: calls →
    CallConfined console man call.1 call.2 (mapAll console man s past)
  unmapped : ∀ virtAddr, (∀ call ∈ calls, virtualPage call.1 ≠ virtualPage virtAddr) →
    Unmapped (mapAll console man s calls).memory man.dirAddr virtAddr

/-! ## A root without present entries -/

section Clean

variable {man : PTableMan} {console : Console} {root : ℕ → Word64} {placement : Placement 512}
  {leaf : ℕ → Option Word64} {s : Kernel} {virtualMemory physicalMemory : Word64}

theorem checkLocked_agreeOutside (console : Console) (virtualMemory physicalMemory : Word64)
    (s : Kernel) : AgreeOutside (reportWrites console s physicalMemory) s.memory
      (console.checkLocked virtualMemory physicalMemory s).memory := by
  unfold reportWrites
  split_ifs with hlocked
  · rw [checkLocked_of_get hlocked]
    exact AgreeOutside.refl _ _
  · exact (checkLocked_reported virtualMemory physicalMemory s).memory

theorem callConfined_of_represents (hrep : Represents man root placement leaf s)
    (hroot : NonePresent root)
    (hroom : Room man (insertPage placement (virtualPage virtualMemory)).count)
    (hapart : Disjoint (region man) console.touched) :
    CallConfined console man virtualMemory physicalMemory s := by
  obtain ⟨-, hframe, hfollowed⟩ := map_represents hrep hroot hroom hapart physicalMemory
  have hinside := hroom.inside
  constructor
  · intro table hmem
    obtain ⟨k, hk, rfl⟩ := hfollowed table hmem
    rw [hroom.toNat_tableAddr hk]
    omega
  · exact ((checkLocked_agreeOutside console virtualMemory physicalMemory s).mono
      Set.subset_union_right).trans
      ((hframe.mono hroom.tables_subset).mono Set.subset_union_left)

theorem confined_of_nonePresent (hPDI : s.PDI = 0)
    (hcells : ∀ index < 512, cells man s.memory index = root index) (hroot : NonePresent root)
    (hapart : Disjoint (region man) console.touched) {calls : List Call}
    (hroom : Room man (placed calls).count) : Confined console man s calls := by
  have hinit : Represents man root (Placement.initial 512) (fun _ => none) s :=
    represents_initial hPDI hcells
  constructor
  · rintro past call ⟨more, hmore⟩
    have hle := count_placed_le_append (past ++ [call]) more
    rw [hmore] at hle
    have hroom' := hroom.mono hle
    rw [placed_concat] at hroom'
    exact callConfined_of_represents (mapAll_represents hinit hroot hapart
      (hroom'.mono (count_le_insertPage _ _))) hroot hroom' hapart
  · intro virtAddr hnever
    exact unmapped_of_leaf (mapAll_represents hinit hroot hapart hroom) hroot hroom
      (lastFrame_of_never hnever)

end Clean

/-! ## A root with a present entry -/

/-- Memory with the given root, in which every table elsewhere repeats one of its
entries. -/
def repeating (man : PTableMan) (root : ℕ → Word64) (index : ℕ) : Memory := fun address =>
  let place := offset man.dirAddr address
  if place < 4096 then byteOf (root (place / 8)) (place % 8)
  else byteOf (root index) (address.toNat % 8)

section Repeating

variable {man : PTableMan} {root : ℕ → Word64} {index : ℕ}

theorem cells_repeating (man : PTableMan) (root : ℕ → Word64) (index : ℕ) {other : ℕ}
    (hother : other < 512) : cells man (repeating man root index) other = root other := by
  rw [cells, wordAt, slot]
  apply load64_of_bytes
  intro byte hbyte
  have hplace : offset man.dirAddr
      (man.dirAddr + BitVec.ofNat 64 (8 * other) + BitVec.ofNat 64 byte) = 8 * other + byte := by
    rw [BitVec.add_assoc, ← BitVec.ofNat_add, offset_add_ofNat _ (by omega)]
  simp only [repeating, hplace]
  rw [if_pos (by omega), show (8 * other + byte) / 8 = other by omega,
    show (8 * other + byte) % 8 = byte by omega]

/-- Entry `index` of every page-aligned table is entry `index` of the root. -/
theorem load_repeating (haligned : man.dirAddr.toNat % 4096 = 0) (hindex : index < 512)
    {table : Word64} (htable : table.toNat % 4096 = 0) :
    load64 (repeating man root index) (table + BitVec.ofNat 64 index * 8) = root index := by
  have hdir := man.dirAddr.isLt
  have hlast := table.isLt
  by_cases hroot : table = man.dirAddr
  · have hslot : table + BitVec.ofNat 64 index * 8 = slot man.dirAddr index := by
      rw [hroot, ← tableAddr_zero man, slot_index, tableAddr_zero, BitVec.toNat_ofNat,
        Nat.mod_eq_of_lt (by omega), Nat.mul_zero, Nat.zero_add]
    rw [hslot]
    exact cells_repeating man root index hindex
  · apply load64_of_bytes
    intro byte hbyte
    have hne : table.toNat ≠ man.dirAddr.toNat := fun heq => hroot (BitVec.eq_of_toNat_eq heq)
    have haddr : (table + BitVec.ofNat 64 index * 8 + BitVec.ofNat 64 byte).toNat =
        table.toNat + 8 * index + byte := by
      rw [BitVec.toNat_add, BitVec.toNat_add, BitVec.toNat_mul, BitVec.toNat_ofNat,
        BitVec.toNat_ofNat]
      change ((table.toNat + index % 2 ^ 64 * 8 % 2 ^ 64) % 2 ^ 64 + byte % 2 ^ 64) % 2 ^ 64 = _
      omega
    have hplace : 4096 ≤
        offset man.dirAddr (table + BitVec.ofNat 64 index * 8 + BitVec.ofNat 64 byte) := by
      rw [offset, BitVec.toNat_sub, haddr]
      omega
    simp only [repeating]
    rw [if_neg (by omega), haddr, show (table.toNat + 8 * index + byte) % 8 = byte by omega]

theorem getAddr_aligned (entry : DirEntry) : entry.getAddr.toNat % 4096 = 0 := by
  rw [DirEntry.getAddr, BitVec.toNat_and]
  exact (Nat.and_mod_two_pow (n := 12)).trans (Nat.and_zero _)

/-- The walk with four times the same index only ever reads that entry. -/
theorem walk_repeating (haligned : man.dirAddr.toNat % 4096 = 0) (hindex : index < 512)
    (hpresent : (root index).getLsbD 0 = true) {table : Word64} (htable : table.toNat % 4096 = 0)
    (levels : ℕ) :
    walk (repeating man root index) table (List.replicate levels (BitVec.ofNat 64 index)) =
      List.replicate levels ⟨root index⟩ := by
  induction levels generalizing table with
  | zero => rfl
  | succ levels ih =>
      rw [List.replicate_succ, List.replicate_succ, walk, load_repeating haligned hindex htable]
      change _ :: (if (root index).getLsbD 0 = true then _ else _) = _
      rw [if_pos hpresent, ih (getAddr_aligned _)]

/-- The address whose four indices are all `index`. -/
def repeatedAddress (index : ℕ) : Word64 :=
  BitVec.ofNat 64 (4096 * (512 * (512 * (512 * index + index) + index) + index))

theorem indices_repeatedAddress (hindex : index < 512) :
    indices (repeatedAddress index) = List.replicate 4 (BitVec.ofNat 64 index) := by
  have hpage : virtualPage (repeatedAddress index) =
      512 * (512 * (512 * index + index) + index) + index := by
    rw [virtualPage, repeatedAddress, BitVec.toNat_ofNat]
    omega
  have hfirst : virtualPage (repeatedAddress index) / 512 =
      512 * (512 * index + index) + index := by
    omega
  have hsecond : virtualPage (repeatedAddress index) / 512 ^ 2 = 512 * index + index := by
    rw [pow_two, ← Nat.div_div_eq_div_mul, hfirst]
    omega
  have hthird : virtualPage (repeatedAddress index) / 512 ^ 3 = index := by
    rw [pow_succ, ← Nat.div_div_eq_div_mul, hsecond]
    omega
  obtain ⟨hPDP, hPD, hPT, hP⟩ := toNat_pMapIndexer (repeatedAddress index)
  rw [hthird] at hPDP
  rw [hsecond] at hPD
  rw [hfirst] at hPT
  rw [hpage] at hP
  have hword : ∀ word : Word64, word.toNat = index → word = BitVec.ofNat 64 index := by
    intro word htoNat
    rw [← htoNat, BitVec.ofNat_toNat, BitVec.setWidth_eq]
  rw [indices, hword _ (hPDP.trans (by omega)), hword _ (hPD.trans (by omega)),
    hword _ (hPT.trans (by omega)), hword _ (hP.trans (by omega))]
  rfl

end Repeating

/-! ## When the region protects itself -/

variable {man : PTableMan} {console : Console}

/-- For every content of the memory around it, a root page keeps all runs of `map` that
fit the directory confined exactly if none of its entries is present. -/
theorem confined_iff (root : ℕ → Word64) (hroom : Room man 0)
    (hapart : Disjoint (region man) console.touched) :
    (∀ s : Kernel, s.PDI = 0 → (∀ index < 512, cells man s.memory index = root index) →
      ∀ calls, Room man (placed calls).count → Confined console man s calls) ↔
    NonePresent root := by
  constructor
  · intro hconfined index hindex
    by_contra hpresent
    rw [Bool.not_eq_false] at hpresent
    have hempty := hconfined (unmapped (repeating man root index)) rfl
      (fun other hother => cells_repeating man root index hother) [] hroom
    obtain ⟨entry, hlast, habsent⟩ := hempty.unmapped (repeatedAddress index) (by simp)
    rw [indices_repeatedAddress hindex] at hlast
    change (walk (repeating man root index) man.dirAddr _).getLast? = some entry at hlast
    rw [walk_repeating hroom.aligned hindex hpresent hroom.aligned] at hlast
    obtain rfl : (⟨root index⟩ : DirEntry) = entry := Option.some.inj hlast
    change (root index).getLsbD 0 = false at habsent
    rw [hpresent] at habsent
    cases habsent
  · intro hroot s hPDI hcells calls hcount
    exact confined_of_nonePresent hPDI hcells hroot hapart hcount

/-- A root whose first entry holds an address but is not present. -/
theorem confined_not_present :
    let man : PTableMan := ⟨0x100000, 0x4000⟩
    let root : ℕ → Word64 := fun index => if index = 0 then 0x200002 else 0
    ∀ s : Kernel, s.PDI = 0 → (∀ index < 512, cells man s.memory index = root index) →
      ∀ calls, Room man (placed calls).count → Confined headless man s calls := by
  intro man root
  have hroom : Room man 0 := ⟨by decide, by decide, by decide, by decide, by decide⟩
  refine (confined_iff root hroom (disjoint_headless (by decide))).mpr ?_
  intro index hindex
  by_cases hzero : index = 0 <;> simp [root, hzero]

/-- A root that holds a present entry, for a table outside the region: nothing was ever
mapped and address 0 is translated. -/
theorem stale_entry_translates :
    let memory := store64 (store64 (fun _ => 0) 0x100000 0x200003) 0x200000 0x200003
    ¬ Confined headless ⟨0x100000, 0x4000⟩ (unmapped memory) [] := by
  intro memory hconfined
  obtain ⟨entry, hlast, habsent⟩ := hconfined.unmapped 0 (by simp)
  have hpath : (walk memory 0x100000 (indices 0)).getLast?.map (hasFlag · .P) = some true := by
    decide +kernel
  change (walk memory 0x100000 (indices 0)).getLast? = some entry at hlast
  rw [hlast, Option.map_some, habsent] at hpath
  cases hpath

end RedX.StaleRoot
