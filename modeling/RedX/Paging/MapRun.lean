import Mathlib.Data.List.Induction
import RedX.Paging.PageTree

/-!
# Runs of `map`

A call of `map` inserts its virtual page into the radix tree, and a run of calls
inserts their pages one after the other.  Room in the directory can be asked of
the numbers of tables that the run reaches (`mapAll_represents_of_run`) or of
the tree that the calls build (`mapAll_represents`).
-/

namespace RedX.MapRun

open RedX.MachineWord
open RedX.ByteMemory
open RedX.WordArray
open RedX.RadixTree
open RedX.TableEntry
open RedX.PageTables
open RedX.PageTree

/-- A call `map(virtualMemory, physicalMemory)`. -/
abbrev Call := Word64 × Word64

def mapAll (console : Console) (man : PTableMan) (s : Kernel) (calls : List Call) : Kernel :=
  calls.foldl (fun s call => man.map console call.1 call.2 s) s

/-- The tree with the tables on the way to a page. -/
def insertPage (placement : Placement 512) (page : ℕ) : Placement 512 :=
  placement.growPath 3 page 3

/-- The tree that a run of calls builds from the root. -/
def placed (calls : List Call) : Placement 512 :=
  calls.foldl (fun placement call => insertPage placement (virtualPage call.1))
    (Placement.initial 512)

/-- What was last mapped at each page. -/
def lastFrame (calls : List Call) : ℕ → Option Word64 :=
  calls.foldl (fun leaf call => Function.update leaf (virtualPage call.1) (some call.2))
    fun _ => none

@[simp]
theorem mapAll_concat (console : Console) (man : PTableMan) (s : Kernel) (calls : List Call)
    (call : Call) : mapAll console man s (calls ++ [call]) =
      man.map console call.1 call.2 (mapAll console man s calls) := by
  rw [mapAll, List.foldl_concat, mapAll]

theorem mapAll_append (console : Console) (man : PTableMan) (s : Kernel) (calls more : List Call) :
    mapAll console man s (calls ++ more) = mapAll console man (mapAll console man s calls) more :=
  List.foldl_append

theorem mapAll_rewritten (console : Console) (man : PTableMan) (s : Kernel) (calls : List Call) :
    Rewritten s (mapAll console man s calls) := by
  induction calls generalizing s with
  | nil => exact Rewritten.refl s
  | cons call calls ih => exact (map_rewritten console man _ _ s).trans (ih _)

@[simp]
theorem placed_concat (calls : List Call) (call : Call) :
    placed (calls ++ [call]) = insertPage (placed calls) (virtualPage call.1) := by
  rw [placed, List.foldl_concat, placed]

@[simp]
theorem lastFrame_concat (calls : List Call) (call : Call) :
    lastFrame (calls ++ [call]) =
      Function.update (lastFrame calls) (virtualPage call.1) (some call.2) := by
  rw [lastFrame, List.foldl_concat, lastFrame]

theorem count_le_insertPage (placement : Placement 512) (page : ℕ) :
    placement.count ≤ (insertPage placement page).count :=
  ((count_le_grow _ _ _).trans (count_le_grow _ _ _)).trans (count_le_grow _ _ _)

theorem count_placed_le_append (calls more : List Call) :
    (placed calls).count ≤ (placed (calls ++ more)).count := by
  induction more using List.reverseRecOn with
  | nil => rw [List.append_nil]
  | append_singleton more call ih =>
      rw [← List.append_assoc, placed_concat]
      exact ih.trans (count_le_insertPage _ _)

/-- The frame at a page is that of the last call for it. -/
theorem lastFrame_of_last {before after : List Call} {call : Call}
    (hlast : ∀ later ∈ after, virtualPage later.1 ≠ virtualPage call.1) :
    lastFrame (before ++ call :: after) (virtualPage call.1) = some call.2 := by
  induction after using List.reverseRecOn with
  | nil => rw [lastFrame_concat, Function.update_self]
  | append_singleton after later ih =>
      rw [← List.cons_append, ← List.append_assoc, lastFrame_concat, Function.update_of_ne]
      · exact ih fun other hmem => hlast other (List.mem_append_left _ hmem)
      · exact (hlast later (by simp)).symm

theorem lastFrame_of_never {calls : List Call} {page : ℕ}
    (hnever : ∀ call ∈ calls, virtualPage call.1 ≠ page) : lastFrame calls page = none := by
  induction calls using List.reverseRecOn with
  | nil => rfl
  | append_singleton calls call ih =>
      rw [lastFrame_concat, Function.update_of_ne (hnever call (by simp)).symm]
      exact ih fun other hmem => hnever other (List.mem_append_left _ hmem)

/-! ## One call -/

section Call

variable {man : PTableMan} {console : Console} {root : ℕ → Word64} {placement : Placement 512}
  {leaf : ℕ → Option Word64} {s : Kernel} {virtualMemory physicalMemory : Word64}

/-- Writes outside the directory region leave the tree alone. -/
theorem represents_of_agreeOutside {s' : Kernel} {touched : Set Word64}
    (hrep : Represents man root placement leaf s) (hroom : Room man placement.count)
    (hapart : Disjoint (region man) touched) (hagree : AgreeOutside touched s.memory s'.memory)
    (hPDI : s'.PDI = s.PDI) : Represents man root placement leaf s' := by
  refine ⟨hrep.layout.congr ?_, by rw [hPDI, hrep.count_eq]⟩
  intro k hk index hindex
  have hsmall := hroom.numbered
  apply wordAt_of_agreeOutside (by omega) hagree
  intro address hmem
  apply Set.disjoint_left.mp hapart
  apply hroom.tables_subset
  simp only [tables, words, Set.mem_ofPred_eq] at hmem ⊢
  omega

/-- The report leaves the tree alone when it writes outside the directory region. -/
theorem checkLocked_represents (hrep : Represents man root placement leaf s)
    (hroom : Room man placement.count) (hapart : Disjoint (region man) console.touched)
    (virtualMemory physicalMemory : Word64) :
    Represents man root placement leaf
      (console.checkLocked virtualMemory physicalMemory s) := by
  have hreport : Reported console s (console.checkLocked virtualMemory physicalMemory s) :=
    checkLocked_reported virtualMemory physicalMemory s
  exact represents_of_agreeOutside hrep hroom hapart hreport.memory hreport.PDI

/-- A call starts at the root. -/
theorem descent_root
    (hreport : Represents man root placement leaf
      (console.checkLocked virtualMemory physicalMemory s)) :
    let reported := console.checkLocked virtualMemory physicalMemory s
    Descent man root leaf reported.memory (virtualPage virtualMemory) 0 placement
      (man.dirAddr, reported) where
  represents := hreport
  reached := by
    refine ⟨0, ?_, (tableAddr_zero man).symm⟩
    rw [prefixAt_zero, placement.root]
    unfold virtualPage
    omega
  frame := AgreeOutside.refl _ _

/-- One call inserts the page and sets its leaf; apart from the report it writes in the
tables only, and the tables it follows are tables of the directory. -/
theorem map_represents_of_reported
    (hreport : Represents man root placement leaf
      (console.checkLocked virtualMemory physicalMemory s)) (hroot : NonePresent root)
    (hroom : Room man (insertPage placement (virtualPage virtualMemory)).count) :
    let grown := insertPage placement (virtualPage virtualMemory)
    Represents man root grown
      (Function.update leaf (virtualPage virtualMemory) (some physicalMemory))
      (man.map console virtualMemory physicalMemory s) ∧
    AgreeOutside (tables man grown.count)
      (console.checkLocked virtualMemory physicalMemory s).memory
      (man.map console virtualMemory physicalMemory s).memory ∧
    ∀ table ∈ man.followed console virtualMemory physicalMemory s,
      ∃ k ≤ grown.count, table = tableAddr man k := by
  intro grown
  obtain ⟨hPDP, hPD, hPT, hP⟩ := toNat_pMapIndexer virtualMemory
  have hroom₂ := hroom.mono (count_le_grow _ _ _)
  have hroom₁ := hroom₂.mono (count_le_grow _ _ _)
  have hdescent₀ := descent_root hreport
  have hdescent₁ := hdescent₀.next hroot (by omega) hPDP hroom₁
  have hdescent₂ := hdescent₁.next hroot (by omega) hPD hroom₂
  have hdescent₃ := hdescent₂.next hroot (by omega) (hPT.trans (by simp [digitAt])) hroom
  obtain ⟨hrep', hframe⟩ := hdescent₃.assign hroom hP physicalMemory
  refine ⟨hrep', hframe, ?_⟩
  obtain ⟨k₁, htable₁, haddr₁⟩ := hdescent₁.reached
  obtain ⟨k₂, htable₂, haddr₂⟩ := hdescent₂.reached
  obtain ⟨k₃, htable₃, haddr₃⟩ := hdescent₃.reached
  intro table hmem
  simp only [PTableMan.followed, List.mem_cons, List.not_mem_nil, or_false] at hmem
  rcases hmem with rfl | rfl | rfl
  · exact ⟨k₁, (Placement.bounded _ htable₁).trans
      ((count_le_grow _ _ _).trans (count_le_grow _ _ _)), haddr₁⟩
  · exact ⟨k₂, (Placement.bounded _ htable₂).trans (count_le_grow _ _ _), haddr₂⟩
  · exact ⟨k₃, Placement.bounded _ htable₃, haddr₃⟩

/-- The same for a call whose report, if it makes one, writes outside the directory. -/
theorem map_represents (hrep : Represents man root placement leaf s) (hroot : NonePresent root)
    (hroom : Room man (insertPage placement (virtualPage virtualMemory)).count)
    (hapart : Disjoint (region man) console.touched) (physicalMemory : Word64) :
    let grown := insertPage placement (virtualPage virtualMemory)
    Represents man root grown
      (Function.update leaf (virtualPage virtualMemory) (some physicalMemory))
      (man.map console virtualMemory physicalMemory s) ∧
    AgreeOutside (tables man grown.count)
      (console.checkLocked virtualMemory physicalMemory s).memory
      (man.map console virtualMemory physicalMemory s).memory ∧
    ∀ table ∈ man.followed console virtualMemory physicalMemory s,
      ∃ k ≤ grown.count, table = tableAddr man k :=
  map_represents_of_reported
    (checkLocked_represents hrep (hroom.mono (count_le_insertPage _ _)) hapart
      virtualMemory physicalMemory) hroot hroom

/-- A step of `map` allocates one table at most. -/
theorem PDI_nextTable (man : PTableMan) (table index : Word64) (s : Kernel)
    (hsmall : s.PDI.toNat + 1 < 2 ^ 32) :
    s.PDI.toNat ≤ (man.nextTable table index s).2.PDI.toNat ∧
      (man.nextTable table index s).2.PDI.toNat ≤ s.PDI.toNat + 1 := by
  have hnext : (s.PDI + 1).toNat = s.PDI.toNat + 1 := by
    rw [BitVec.toNat_add]
    change (s.PDI.toNat + 1) % 2 ^ 32 = _
    omega
  cases hpresent : (s.entry table index).get .P with
  | true =>
      rw [PTableMan.nextTable, hpresent]
      exact ⟨le_rfl, Nat.le_succ _⟩
  | false =>
      rw [PTableMan.nextTable, hpresent]
      change s.PDI.toNat ≤ (s.PDI + 1).toNat ∧ (s.PDI + 1).toNat ≤ s.PDI.toNat + 1
      omega

/-- If the directory has room for the tables that a call has numbered in the end, they
are the tables of the tree with the page. -/
theorem PDI_map (hrep : Represents man root placement leaf s) (hroot : NonePresent root)
    (hroom : Room man placement.count) (hapart : Disjoint (region man) console.touched)
    (hroom' : Room man (man.map console virtualMemory physicalMemory s).PDI.toNat) :
    (man.map console virtualMemory physicalMemory s).PDI.toNat =
      (insertPage placement (virtualPage virtualMemory)).count := by
  obtain ⟨hPDP, hPD, hPT, -⟩ := toNat_pMapIndexer virtualMemory
  have hsmall := hroom.numbered
  let reported := console.checkLocked virtualMemory physicalMemory s
  let PDP := man.nextTable man.dirAddr (pMapIndexer virtualMemory).PDP_i reported
  let PD := man.nextTable PDP.1 (pMapIndexer virtualMemory).PD_i PDP.2
  let PT := man.nextTable PD.1 (pMapIndexer virtualMemory).PT_i PD.2
  let page := virtualPage virtualMemory
  change Room man PT.2.PDI.toNat at hroom'
  change PT.2.PDI.toNat = (placement.growPath 3 page 3).count
  have hdescent₀ := descent_root
    (checkLocked_represents hrep hroom hapart virtualMemory physicalMemory)
  have hcount₁ : PDP.2.PDI.toNat = (placement.growPath 3 page 1).count :=
    hdescent₀.PDI_next hroot hroom (by omega) hPDP
  have hcount₀ : reported.PDI.toNat = placement.count := hdescent₀.represents.count_eq
  have hle₁ : PDP.2.PDI.toNat ≤ reported.PDI.toNat + 1 :=
    (PDI_nextTable man man.dirAddr _ reported (by omega)).2
  have hle₂ : PDP.2.PDI.toNat ≤ PD.2.PDI.toNat ∧ PD.2.PDI.toNat ≤ PDP.2.PDI.toNat + 1 :=
    PDI_nextTable man PDP.1 _ PDP.2 (by omega)
  have hle₃ : PD.2.PDI.toNat ≤ PT.2.PDI.toNat :=
    (PDI_nextTable man PD.1 _ PD.2 (by omega)).1
  have hroom₁ : Room man (placement.growPath 3 page 1).count := hroom'.mono (by omega)
  have hdescent₁ := hdescent₀.next hroot (by omega) hPDP hroom₁
  have hcount₂ : PD.2.PDI.toNat = (placement.growPath 3 page 2).count :=
    hdescent₁.PDI_next hroot hroom₁ (by omega) hPD
  have hroom₂ : Room man (placement.growPath 3 page 2).count := hroom'.mono (by omega)
  have hdescent₂ := hdescent₁.next hroot (by omega) hPD hroom₂
  exact hdescent₂.PDI_next hroot hroom₂ (by omega) (hPT.trans (by simp [digitAt]))

end Call

/-! ## Runs of calls -/

section Run

variable {man : PTableMan} {console : Console} {root : ℕ → Word64} {s : Kernel}
  {calls : List Call}

/-- The tree before the first call: the root alone. -/
theorem represents_initial (hPDI : s.PDI = 0) (hcells : ∀ index < 512,
    cells man s.memory index = root index) :
    Represents man root (Placement.initial 512) (fun _ => none) s where
  layout := by
    constructor
    · intro level node k index hlevel htable hindex
      simp only [Placement.initial] at htable
      split_ifs at htable with hnode
      obtain ⟨rfl, rfl⟩ := hnode
      obtain rfl := Option.some.inj htable
      rw [Nat.mul_zero, Nat.zero_add, hcells index hindex, Nat.zero_add, target]
      simp [Placement.initial, link, unused]
    · intro key hleaf
      cases hleaf
  count_eq := by rw [hPDI]; rfl

/-- A run holds the tree that its calls build. -/
theorem mapAll_represents
    (hinit : Represents man root (Placement.initial 512) (fun _ => none) s)
    (hroot : NonePresent root) (hapart : Disjoint (region man) console.touched)
    (hroom : Room man (placed calls).count) :
    Represents man root (placed calls) (lastFrame calls) (mapAll console man s calls) := by
  induction calls using List.reverseRecOn with
  | nil => exact hinit
  | append_singleton calls call ih =>
      rw [placed_concat] at hroom
      rw [mapAll_concat, placed_concat, lastFrame_concat]
      exact (map_represents (ih (hroom.mono (count_le_insertPage _ _))) hroot hroom hapart
        call.2).1

/-- If the directory has room for the tables numbered at every point of a run, it has
room for the tree. -/
theorem room_placed
    (hinit : Represents man root (Placement.initial 512) (fun _ => none) s)
    (hroot : NonePresent root) (hapart : Disjoint (region man) console.touched)
    (hroom : ∀ past, past <+: calls → Room man (mapAll console man s past).PDI.toNat) :
    Room man (placed calls).count := by
  induction calls using List.reverseRecOn with
  | nil =>
      have hstart := hroom [] List.prefix_rfl
      rwa [mapAll, List.foldl_nil, hinit.count_eq] at hstart
  | append_singleton calls call ih =>
      have hbefore := ih fun past hpast => hroom past (hpast.trans (List.prefix_append _ _))
      have hafter := hroom (calls ++ [call]) List.prefix_rfl
      have hrep := mapAll_represents hinit hroot hapart hbefore
      rw [mapAll_concat] at hafter
      have hcount := PDI_map hrep hroot hbefore hapart hafter
      rwa [hcount, ← placed_concat] at hafter

end Run

end RedX.MapRun
