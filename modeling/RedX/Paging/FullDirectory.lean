import RedX.Paging.MapWrites

/-!
# `map` with a full directory

`allocateEntry` returns NULL when the directory is full, and none of the three levels
of `map` looks at it: the page at address 0 is cleared, the entry is pointed there and
made present, and the walk goes on in that page.
-/

namespace RedX.FullDirectory

open RedX.MachineWord
open RedX.ByteMemory
open RedX.TableEntry
open RedX.PageTables
open RedX.PageTree
open RedX.Translation
open RedX.StaleRoot
open RedX.MapWrites

/-- One of the three levels of a call: the table, the index and the state before. -/
structure TableStep where
  table : Word64
  index : Word64
  state : Kernel

def TableStep.entry (step : TableStep) : DirEntry := step.state.entry step.table step.index

/-- The entry after the step. -/
def TableStep.after (step : TableStep) (man : PTableMan) : DirEntry :=
  (man.nextTable step.table step.index step.state).2.entry step.table step.index

/-- The levels of a call of `map`. -/
def tableSteps (console : Console) (man : PTableMan) (virtualMemory physicalMemory : Word64)
    (s : Kernel) : List TableStep :=
  let reported := console.checkLocked virtualMemory physicalMemory s
  let indexer := pMapIndexer virtualMemory
  let PDP := man.nextTable man.dirAddr indexer.PDP_i reported
  let PD := man.nextTable PDP.1 indexer.PD_i PDP.2
  [⟨man.dirAddr, indexer.PDP_i, reported⟩, ⟨PDP.1, indexer.PD_i, PDP.2⟩,
    ⟨PD.1, indexer.PT_i, PD.2⟩]

/-- The level asks for a table and gets NULL. -/
def TableStep.GetsNull (man : PTableMan) (step : TableStep) : Prop :=
  step.entry.get .P = false ∧ (man.allocateEntry step.state).1 = 0

/-- The level makes an entry present that points to NULL. -/
def TableStep.LinksNull (man : PTableMan) (step : TableStep) : Prop :=
  hasFlag step.entry .P = false ∧ hasFlag (step.after man) .P = true ∧
    (step.after man).getAddr = 0

/-- The level leaves nothing in the page at address 0, a new entry there apart. -/
def TableStep.ClearsNull (man : PTableMan) (step : TableStep) : Prop :=
  ∀ address ∈ tablePage 0, address ∉ entryBytes step.table step.index →
    (man.nextTable step.table step.index step.state).2.memory address = 0

/-- A call that leaves everything as it was. -/
structure Atomic (console : Console) (man : PTableMan) (virtualMemory physicalMemory : Word64)
    (s : Kernel) : Prop where
  walks : ∀ virtAddr,
    walk (man.map console virtualMemory physicalMemory s).memory man.dirAddr (indices virtAddr) =
      walk s.memory man.dirAddr (indices virtAddr)
  outside : AgreeOutside (region man ∪ reportWrites console s physicalMemory) s.memory
    (man.map console virtualMemory physicalMemory s).memory
  unlinked : ∀ step ∈ tableSteps console man virtualMemory physicalMemory s, ¬ step.LinksNull man
  spared : 0 ∉ mapWrites console man virtualMemory physicalMemory s

variable {console : Console} {man : PTableMan} {virtualMemory physicalMemory : Word64}
  {s : Kernel} {step : TableStep}

theorem entry_putEntry (s : Kernel) (table index : Word64) (entry : DirEntry) :
    (s.putEntry table index entry).entry table index = entry := by
  rw [Kernel.entry, Kernel.putEntry, memory_withMemory, load64_store64]

theorem hasFlag_P_eq_get (entry : DirEntry) : hasFlag entry .P = entry.get .P :=
  (get_eq entry .P).symm

theorem hasFlag_P_pointTo (entry : DirEntry) (address : Word64) :
    hasFlag (entry.pointTo address) .P = true := by
  rw [hasFlag, getLsbD_pointTo _ _ (by decide)]
  rfl

/-- The state after a level that gets NULL. -/
theorem TableStep.GetsNull.next (hnull : step.GetsNull man) :
    (man.nextTable step.table step.index step.state).2 =
      (({ step.state with PDI := step.state.PDI + 1 } : Kernel).withMemory
        (set step.state.memory 0 0 0x1000)).putEntry step.table step.index
          (step.entry.pointTo 0) := by
  obtain ⟨habsent, hzero⟩ := hnull
  have habsent' : (step.state.entry step.table step.index).get .P = false := habsent
  rw [PTableMan.nextTable, habsent']
  change ((man.allocateEntry step.state).2.withMemory
    (set step.state.memory (man.allocateEntry step.state).1 0 0x1000)).putEntry _ _
      (step.entry.pointTo (man.allocateEntry step.state).1) = _
  rw [hzero]
  rfl

/-- A level that gets NULL links it. -/
theorem TableStep.GetsNull.linksNull (hnull : step.GetsNull man) : step.LinksNull man := by
  have hafter : step.after man = step.entry.pointTo 0 := by
    rw [TableStep.after, hnull.next]
    exact entry_putEntry _ _ _ _
  refine ⟨by rw [hasFlag_P_eq_get, hnull.1], ?_, ?_⟩
  · rw [hafter, hasFlag_P_pointTo]
  · rw [hafter, getAddr_pointTo _ (by decide)]
    rfl

/-- A level that gets NULL clears the page at address 0. -/
theorem TableStep.GetsNull.clearsNull (hnull : step.GetsNull man) : step.ClearsNull man := by
  intro address hpage houtside
  rw [hnull.next]
  refine (putEntry_entryBytes _ step.table step.index _ address houtside).trans ?_
  rw [memory_withMemory, set_eq_store]
  exact store_of_offset_lt hpage

theorem TableStep.GetsNull.writes (hnull : step.GetsNull man) :
    0 ∈ tableWrites man step.table step.index step.state := by
  obtain ⟨habsent, hzero⟩ := hnull
  have habsent' : (step.state.entry step.table step.index).get .P = false := habsent
  rw [tableWrites, habsent', hzero]
  exact Or.inl (by simp [tablePage, offset])

theorem tableWrites_subset_mapWrites
    (hstep : step ∈ tableSteps console man virtualMemory physicalMemory s) :
    tableWrites man step.table step.index step.state ⊆
      mapWrites console man virtualMemory physicalMemory s := by
  simp only [tableSteps, List.mem_cons, List.not_mem_nil, or_false] at hstep
  intro address hmem
  rw [mapWrites]
  rcases hstep with rfl | rfl | rfl
  · exact Or.inr (Or.inl hmem)
  · exact Or.inr (Or.inr (Or.inl hmem))
  · exact Or.inr (Or.inr (Or.inr (Or.inl hmem)))

/-- No call that gets NULL for a table is atomic: it links NULL and writes at address 0. -/
theorem map_not_atomic
    (hnull : ∃ step ∈ tableSteps console man virtualMemory physicalMemory s, step.GetsNull man) :
    (∃ step ∈ tableSteps console man virtualMemory physicalMemory s,
      step.LinksNull man ∧ step.ClearsNull man) ∧
    0 ∈ mapWrites console man virtualMemory physicalMemory s ∧
    ¬ Atomic console man virtualMemory physicalMemory s := by
  obtain ⟨step, hstep, hgets⟩ := hnull
  have hwrites := tableWrites_subset_mapWrites hstep hgets.writes
  exact ⟨⟨step, hstep, hgets.linksNull, hgets.clearsNull⟩, hwrites,
    fun hatomic => hatomic.unlinked step hstep hgets.linksNull⟩

/-! ## A full directory -/

/-- A root and two tables from 0x1000 on, the way to address 0 down to the third level. -/
def full : Kernel where
  allocator := ⟨store64 (store64 (fun address => if address = 0x5000 ∨ address = 0x100 then 0xff
    else 0) 0x1000 0x2003) 0x2000 0x3003, ⟨1, 0x5000⟩, 0, 0, 0, true, 0, 0⟩
  cur := ⟨0, 0, 0, 0⟩
  PDI := 4
  VAI := 0

/-- The third level of the call that maps page 0 to frame 0. -/
def lastStep : TableStep := ⟨0x3000, 0, full⟩

theorem lastStep_getsNull : lastStep.GetsNull ⟨0x1000, 0x3000⟩ := ⟨by decide, by decide⟩

theorem full_followed {table index frame : Word64} (hentry : full.entry table index = ⟨frame + 3⟩)
    (hpresent : (⟨frame + 3⟩ : DirEntry).get .P = true)
    (hframe : (⟨frame + 3⟩ : DirEntry).getAddr = frame) :
    PTableMan.nextTable ⟨0x1000, 0x3000⟩ table index full = (frame, full) := by
  rw [PTableMan.nextTable, hentry, hpresent, hframe]
  rfl

theorem full_PDP : PTableMan.nextTable ⟨0x1000, 0x3000⟩ 0x1000 (pMapIndexer 0).PDP_i full =
    (0x2000, full) :=
  full_followed (by decide) (by decide) (by decide)

theorem full_PD : PTableMan.nextTable ⟨0x1000, 0x3000⟩ 0x2000 (pMapIndexer 0).PD_i full =
    (0x3000, full) :=
  full_followed (by decide) (by decide) (by decide)

theorem full_tableSteps : lastStep ∈ tableSteps headless ⟨0x1000, 0x3000⟩ 0 0 full := by
  rw [tableSteps, checkLocked_of_get (by decide)]
  dsimp only
  rw [full_PDP, full_PD]
  exact List.mem_cons_of_mem _ (List.mem_cons_of_mem _ (List.mem_singleton.mpr rfl))

/-- After the third level the call writes one entry, in the page at address 0. -/
theorem map_full : ∃ entry, PTableMan.map headless ⟨0x1000, 0x3000⟩ 0 0 full =
    (PTableMan.nextTable ⟨0x1000, 0x3000⟩ 0x3000 0 full).2.putEntry 0 0 entry := by
  have hnull : (PTableMan.nextTable ⟨0x1000, 0x3000⟩ 0x3000 0 full).1 = 0 := by
    rw [PTableMan.nextTable, show (full.entry 0x3000 0).get .P = false by decide]
    decide
  rw [PTableMan.map, checkLocked_of_get (by decide)]
  dsimp only
  rw [full_PDP, full_PD, show (pMapIndexer 0).PT_i = 0 from rfl, hnull]
  exact ⟨_, rfl⟩

theorem map_not_atomic_full :
    0 ∈ mapWrites headless ⟨0x1000, 0x3000⟩ 0 0 full ∧
      ¬ Atomic headless ⟨0x1000, 0x3000⟩ 0 0 full :=
  (map_not_atomic ⟨lastStep, full_tableSteps, lastStep_getsNull⟩).2

/-- Byte 0x100, outside of the directory, is lost. -/
theorem null_table_linked :
    (∃ step ∈ tableSteps headless ⟨0x1000, 0x3000⟩ 0 0 full,
      step.GetsNull ⟨0x1000, 0x3000⟩) ∧
    full.memory 0x100 = 0xff ∧
    (PTableMan.map headless ⟨0x1000, 0x3000⟩ 0 0 full).memory 0x100 = 0 ∧
    ¬ Atomic headless ⟨0x1000, 0x3000⟩ 0 0 full := by
  have hlost : (PTableMan.map headless ⟨0x1000, 0x3000⟩ 0 0 full).memory 0x100 = 0 := by
    obtain ⟨entry, hmap⟩ := map_full
    rw [hmap, putEntry_entryBytes _ 0 0 entry 0x100 (by simp [entryBytes, offset])]
    exact lastStep_getsNull.clearsNull 0x100 (by simp [tablePage, offset])
      (by simp [entryBytes, offset, lastStep])
  refine ⟨⟨lastStep, full_tableSteps, lastStep_getsNull⟩, by decide, hlost, fun hatomic => ?_⟩
  have hkept := hatomic.outside 0x100 ?_
  · rw [hlost] at hkept
    revert hkept
    decide
  · rw [reportWrites, if_pos (by decide), Set.union_empty]
    simp [region]

end RedX.FullDirectory
