import RedX.Memory.FreePages
import RedX.Paging.StaleRoot

/-!
# What a call of `map` writes

A call writes its report, the tables that it creates and one entry at each level that it
changes.  Where none of these bytes belongs to the page bitmap, the marked pages stay as
they are (`map_marked`); with room in the directory all of them lie in the region or are
part of the report (`mapWrites_subset`).
-/

namespace RedX.MapWrites

open RedX.MachineWord
open RedX.ByteMemory
open RedX.RadixTree
open RedX.FreePages
open RedX.TableEntry
open RedX.PageTables
open RedX.PageTree
open RedX.MapRun
open RedX.StaleRoot

/-- The bytes of a table. -/
def tablePage (table : Word64) : Set Word64 := {address | offset table address < 0x1000}

/-- The bytes of `table->entries[index]`. -/
def entryBytes (table index : Word64) : Set Word64 :=
  {address | offset (table + index * 8) address < 8}

/-- The bytes that a step of `map` to the next table writes. -/
def tableWrites (man : PTableMan) (table index : Word64) (s : Kernel) : Set Word64 :=
  if (s.entry table index).get .P = true then ∅
  else tablePage (man.allocateEntry s).1 ∪ entryBytes table index

/-- The bytes that a call of `map` writes. -/
def mapWrites (console : Console) (man : PTableMan) (virtualMemory physicalMemory : Word64)
    (s : Kernel) : Set Word64 :=
  let reported := console.checkLocked virtualMemory physicalMemory s
  let indexer := pMapIndexer virtualMemory
  let PDP := man.nextTable man.dirAddr indexer.PDP_i reported
  let PD := man.nextTable PDP.1 indexer.PD_i PDP.2
  let PT := man.nextTable PD.1 indexer.PT_i PD.2
  reportWrites console s physicalMemory ∪ (tableWrites man man.dirAddr indexer.PDP_i reported ∪
    (tableWrites man PDP.1 indexer.PD_i PDP.2 ∪ (tableWrites man PD.1 indexer.PT_i PD.2 ∪
      entryBytes PT.1 indexer.P_i)))

variable {console : Console} {man : PTableMan} {s : Kernel} {page count k : ℕ}
  {virtualMemory physicalMemory table index : Word64}

theorem putEntry_entryBytes (s : Kernel) (table index : Word64) (entry : DirEntry) :
    AgreeOutside (entryBytes table index) s.memory (s.putEntry table index entry).memory := by
  rw [Kernel.putEntry, memory_withMemory, store64]
  exact agreeOutside_store _ _ fun _ hinside => hinside

theorem nextTable_agreeOutside (man : PTableMan) (table index : Word64) (s : Kernel) :
    AgreeOutside (tableWrites man table index s) s.memory
      (man.nextTable table index s).2.memory := by
  cases hpresent : (s.entry table index).get .P with
  | true =>
      rw [PTableMan.nextTable, hpresent]
      exact AgreeOutside.refl _ _
  | false =>
      rw [tableWrites, PTableMan.nextTable, hpresent]
      refine AgreeOutside.trans ?_ ((putEntry_entryBytes _ table index _).mono
        Set.subset_union_right)
      change AgreeOutside _ s.memory (set s.memory (man.allocateEntry s).1 0 0x1000)
      rw [set_eq_store]
      exact agreeOutside_store _ _ fun _ hinside => Or.inl hinside

theorem map_agreeOutside (console : Console) (man : PTableMan)
    (virtualMemory physicalMemory : Word64) (s : Kernel) :
    AgreeOutside (mapWrites console man virtualMemory physicalMemory s) s.memory
      (man.map console virtualMemory physicalMemory s).memory := by
  let reported := console.checkLocked virtualMemory physicalMemory s
  let indexer := pMapIndexer virtualMemory
  let PDP := man.nextTable man.dirAddr indexer.PDP_i reported
  let PD := man.nextTable PDP.1 indexer.PD_i PDP.2
  let PT := man.nextTable PD.1 indexer.PT_i PD.2
  have hreport : AgreeOutside _ s.memory reported.memory :=
    checkLocked_agreeOutside console virtualMemory physicalMemory s
  have hPDP : AgreeOutside _ reported.memory PDP.2.memory := nextTable_agreeOutside _ _ _ _
  have hPD : AgreeOutside _ PDP.2.memory PD.2.memory := nextTable_agreeOutside _ _ _ _
  have hPT : AgreeOutside _ PD.2.memory PT.2.memory := nextTable_agreeOutside _ _ _ _
  have hlast := putEntry_entryBytes PT.2 PT.1 indexer.P_i
    ((PT.2.entry PT.1 indexer.P_i).pointTo physicalMemory)
  intro address houtside
  simp only [mapWrites, Set.mem_union, not_or] at houtside
  obtain ⟨hout, houtPDP, houtPD, houtPT, houtLast⟩ := houtside
  exact (hlast address houtLast).trans ((hPT address houtPT).trans ((hPD address houtPD).trans
    ((hPDP address houtPDP).trans (hreport address hout))))

/-- A call that writes no byte of the bitmap leaves the marked pages alone. -/
theorem map_marked (hsize : s.allocator.pageBitmap.WellSized)
    (hspares : Disjoint (mapWrites console man virtualMemory physicalMemory s)
      (bitmapStore s.allocator.pageBitmap s.allocator.pageBitmap.size.toNat))
    (hpage : page < s.allocator.reach) :
    (man.map console virtualMemory physicalMemory s).allocator.Marked page ↔
      s.allocator.Marked page := by
  rw [(map_rewritten console man virtualMemory physicalMemory s).allocator]
  exact marked_of_agreeOutside hsize (map_agreeOutside console man _ _ s) hspares hpage

/-! ## With room in the directory -/

theorem entryBytes_subset (hindex : index.toNat < 512) :
    entryBytes table index ⊆ tablePage table := by
  intro address hmem
  have haddr : address - table = (address - (table + index * 8)) + index * 8 := by
    bv_omega
  have hlast := address.isLt
  simp only [entryBytes, tablePage, offset, Set.mem_ofPred_eq] at hmem ⊢
  rw [haddr, BitVec.toNat_add, BitVec.toNat_mul]
  change ((address - (table + index * 8)).toNat + index.toNat * 8 % 2 ^ 64) % 2 ^ 64 < 4096
  omega

theorem tablePage_subset (hroom : Room man count) (hk : k ≤ count) :
    tablePage (tableAddr man k) ⊆ region man := by
  intro address hmem
  have haddr := hroom.toNat_tableAddr hk
  have hlow := hroom.low
  have hinside := hroom.inside
  have hlast := address.isLt
  simp only [tablePage, offset, Set.mem_ofPred_eq, BitVec.toNat_sub, haddr] at hmem
  simp only [region, Set.mem_ofPred_eq]
  omega

theorem tableWrites_subset (hindex : index.toNat < 512) :
    tableWrites man table index s ⊆
      tablePage (man.nextTable table index s).1 ∪ tablePage table := by
  cases hpresent : (s.entry table index).get .P with
  | true =>
      rw [tableWrites, hpresent]
      exact Set.empty_subset _
  | false =>
      rw [tableWrites, PTableMan.nextTable, hpresent]
      exact Set.union_subset_union_right _ (entryBytes_subset hindex)

/-- From a root without present entries, with room in the directory, a call writes the
directory region and its report only. -/
theorem mapWrites_subset {root : ℕ → Word64} {placement : Placement 512}
    {leaf : ℕ → Option Word64} (hrep : Represents man root placement leaf s)
    (hroot : NonePresent root)
    (hroom : Room man (insertPage placement (virtualPage virtualMemory)).count)
    (hapart : Disjoint (region man) console.touched) :
    mapWrites console man virtualMemory physicalMemory s ⊆
      region man ∪ reportWrites console s physicalMemory := by
  obtain ⟨-, -, hfollowed⟩ := map_represents hrep hroot hroom hapart physicalMemory
  obtain ⟨hPDP, hPD, hPT, hP⟩ := toNat_pMapIndexer virtualMemory
  have hpage : ∀ table ∈ man.dirAddr :: man.followed console virtualMemory physicalMemory s,
      tablePage table ⊆ region man := by
    intro table hmem
    rcases List.mem_cons.mp hmem with rfl | hmem
    · have hsubset := tablePage_subset hroom (Nat.zero_le _)
      rwa [tableAddr_zero] at hsubset
    · obtain ⟨k, hk, rfl⟩ := hfollowed table hmem
      exact tablePage_subset hroom hk
  simp only [PTableMan.followed, List.forall_mem_cons] at hpage
  obtain ⟨hdir, hpagePDP, hpagePD, hpagePT, -⟩ := hpage
  refine Set.union_subset Set.subset_union_right (Set.subset_union_of_subset_left ?_ _)
  refine Set.union_subset ?_ (Set.union_subset ?_ (Set.union_subset ?_ ?_))
  · exact (tableWrites_subset (by omega)).trans (Set.union_subset hpagePDP hdir)
  · exact (tableWrites_subset (by omega)).trans (Set.union_subset hpagePD hpagePDP)
  · exact (tableWrites_subset (by omega)).trans (Set.union_subset hpagePT hpagePD)
  · exact (entryBytes_subset (by omega)).trans hpagePT

end RedX.MapWrites
