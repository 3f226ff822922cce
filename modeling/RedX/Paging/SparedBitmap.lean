import RedX.Memory.PageOwnership
import RedX.Paging.KernelRun
import RedX.Paging.MapWrites
import RedX.Paging.PagePool

/-!
# Runs that spare the bitmap

`map` writes page tables and reports wherever its pointers lead, also over the page bitmap.
In a run whose calls of `map` spare the bitmap and in which nothing is freed, the marked
pages only grow, so no page that was marked before is granted (`keeps_throughout`).
-/

namespace RedX.SparedBitmap

open RedX.MachineWord
open RedX.PartialRun
open RedX.RadixTree
open RedX.PageBitmap
open RedX.PageAllocation
open RedX.PageOwnership (Sized)
open RedX.PagePass
open RedX.FreePages
open RedX.TableEntry
open RedX.PageTables
open RedX.PageTree
open RedX.MapRun
open RedX.StaleRoot
open RedX.PagePool
open RedX.KernelRun
open RedX.MapWrites

/-- The call writes no byte of the bitmap. -/
def SparesMap (console : Console) (man : PTableMan) (virtualMemory physicalMemory : Word64)
    (s : Kernel) : Prop :=
  Disjoint (mapWrites console man virtualMemory physicalMemory s)
    (bitmapStore s.allocator.pageBitmap s.allocator.pageBitmap.size.toNat)

def SparesPass (console : Console) (man : PTableMan) (h : History) (_ : Unit) : Prop :=
  ∀ frame allocator, h.kernel.allocator.getPage = some (frame, allocator) →
    SparesMap console man h.kernel.VAI frame { h.kernel with allocator := allocator }

/-- The calls of `map` that an event makes write no byte of the bitmap. -/
def Spares (console : Console) (man : PTableMan) (h : History) : Event → Prop
  | .call _ => True
  | .map virtualMemory physicalMemory => SparesMap console man virtualMemory physicalMemory h.kernel
  | .getPool size => Meets (pass console man) (SparesPass console man) h (passes size)

/-- The event frees and releases nothing. -/
def Holding : Event → Prop
  | .call call => call.pass.sets = true
  | .map _ _ => True
  | .getPool _ => True

instance (event : Event) : Decidable (Holding event) := by
  cases event <;> unfold Holding <;> infer_instance

/-- The pages are marked as far as the bitmap goes, and none of them was granted. -/
structure Keeps (bitmap : Bitmap) (pages : Set ℕ) (h : History) : Prop where
  sized : Sized bitmap h.kernel.allocator
  marked : ∀ page ∈ pages, page < 8 * bitmap.size.toNat → h.kernel.allocator.Marked page
  granted : ∀ found ∈ h.granted, pageIndex found ∉ pages
  mapped : ∀ call ∈ h.mapped, pageIndex call.2 ∉ pages

variable {console : Console} {man : PTableMan} {bitmap : Bitmap} {pages : Set ℕ}
  {h h' : History} {event : Event} {events : List Event} {s : Kernel}
  {page : ℕ} {virtualMemory physicalMemory : Word64}

theorem Sized.map (hsized : Sized bitmap s.allocator) (console : Console) (man : PTableMan)
    (virtualMemory physicalMemory : Word64) :
    Sized bitmap (man.map console virtualMemory physicalMemory s).allocator :=
  ⟨(map_rewritten console man virtualMemory physicalMemory s).pageBitmap.trans hsized.1, hsized.2⟩

/-- `map_marked` for a bitmap that is known. -/
theorem Sized.map_marked (hsized : Sized bitmap s.allocator)
    (hspares : SparesMap console man virtualMemory physicalMemory s)
    (hpage : page < 8 * bitmap.size.toNat) :
    (man.map console virtualMemory physicalMemory s).allocator.Marked page ↔
      s.allocator.Marked page := by
  obtain ⟨rfl, hsize, -⟩ := hsized
  exact MapWrites.map_marked hsize hspares hpage

/-- A page that `getPage` grants is none of the marked ones. -/
theorem Keeps.granted_not_mem (hkeeps : Keeps bitmap pages h) {found : Word64}
    {allocator : PageAllocator} (hget : h.kernel.allocator.getPage = some (found, allocator)) :
    pageIndex found ∉ pages ∧ Sized bitmap allocator ∧
      ∀ page < 8 * bitmap.size.toNat, h.kernel.allocator.Marked page → allocator.Marked page := by
  obtain ⟨⟨hbitmap, hsize, hpos⟩, hmarked, -, -⟩ := hkeeps
  rw [← hbitmap] at hsize hpos hmarked ⊢
  have hgranted := getPage_granted hsize hpos hget
  refine ⟨fun hmem => hgranted.unmarked (hmarked _ hmem hgranted.tracked),
    ⟨hgranted.pageBitmap, hsize, hpos⟩, fun page hpage hset => ?_⟩
  exact (hgranted.marked page hpage.le).mpr (Or.inl hset)

theorem keeps_of_pass (hkeeps : Keeps bitmap pages h) (hspares : SparesPass console man h ())
    (hpass : pass console man h () = some h') : Keeps bitmap pages h' := by
  obtain ⟨frame, allocator, hget, hmapped, hgranted, hallocator, -⟩ := pass_eq_some hpass
  obtain ⟨hnot, hsized, hset⟩ := hkeeps.granted_not_mem hget
  constructor
  · rw [hallocator]
    exact Sized.map (s := { h.kernel with allocator := allocator }) hsized _ _ _ _
  · intro page hmem hpage
    rw [hallocator, Sized.map_marked (s := { h.kernel with allocator := allocator }) hsized
      (hspares frame allocator hget) hpage]
    exact hset page hpage (hkeeps.marked page hmem hpage)
  · rw [hgranted]
    exact hkeeps.granted
  · rw [hmapped, List.forall_mem_append]
    exact ⟨hkeeps.mapped, by simpa using hnot⟩

theorem keeps_of_call {call : PagePass.Call} (hkeeps : Keeps bitmap pages h)
    (hsets : call.pass.sets = true)
    (hstep : step console man h (.call call) = some h') : Keeps bitmap pages h' := by
  rw [step, Option.map_eq_some_iff] at hstep
  obtain ⟨allocator, hperform, rfl⟩ := hstep
  obtain ⟨hbitmap, hsize, hpos⟩ := hkeeps.sized
  have hflips := perform_flips (hbitmap ▸ hsize) hperform
  refine ⟨⟨hflips.pageBitmap.trans hbitmap, hsize, hpos⟩, ?_, ?_, hkeeps.mapped⟩
  · intro page hmem hpage
    have hreach : page ≤ h.kernel.allocator.reach := by
      rw [PageAllocator.reach, hbitmap]
      exact hpage.le
    refine (hflips.marked page hreach).mpr ?_
    split_ifs
    · exact hsets
    · exact hkeeps.marked page hmem hpage
  · rw [List.forall_mem_append]
    refine ⟨hkeeps.granted, fun found hfound => ?_⟩
    cases call with
    | getPage page =>
        obtain rfl := List.mem_singleton.mp hfound
        exact (hkeeps.granted_not_mem (perform_getPage hperform)).1
    | _ => cases hfound

theorem Keeps.skipPage (hkeeps : Keeps bitmap pages h) : Keeps bitmap pages h.skipPage := by
  obtain ⟨hsized, hmarked, hgranted, hmapped⟩ := hkeeps
  constructor <;> rw [History.skipPage]
  · exact hsized
  · exact hmarked
  · exact hgranted
  · exact hmapped

theorem keeps_of_step (hkeeps : Keeps bitmap pages h) (hholding : Holding event)
    (hspares : Spares console man h event) (hstep : step console man h event = some h') :
    Keeps bitmap pages h' := by
  cases event with
  | call call => exact keeps_of_call hkeeps hholding hstep
  | map virtualMemory physicalMemory =>
      rw [step, Option.some.injEq] at hstep
      subst hstep
      refine ⟨Sized.map hkeeps.sized _ _ _ _, ?_, hkeeps.granted, hkeeps.mapped⟩
      intro page hmem hpage
      exact (Sized.map_marked hkeeps.sized hspares hpage).mpr (hkeeps.marked page hmem hpage)
  | getPool size =>
      rw [step, Option.map_eq_some_iff] at hstep
      obtain ⟨next, hrun, rfl⟩ := hstep
      have hnext : Keeps bitmap pages next :=
        run_meets_invariant (Keeps bitmap pages) hkeeps
          (fun state _ later hstate hcond hpass => keeps_of_pass hstate hcond hpass) hspares hrun
      exact hnext.skipPage

/-- In a run that spares the bitmap and frees nothing no marked page is granted. -/
theorem keeps_throughout (hkeeps : Keeps bitmap pages h)
    (hholding : ∀ event ∈ events, Holding event)
    (hspares : Meets (step console man) (Spares console man) h events) :
    Throughout (step console man) (Keeps bitmap pages) h events :=
  throughout_of_meets (Keeps bitmap pages) hkeeps
    (fun _ event hevent _ hstate hcond hstep =>
      keeps_of_step hstate (hholding event hevent) hcond hstep) hspares

theorem holding_mapEvents (calls : List MapRun.Call) :
    ∀ event ∈ mapEvents calls, Holding event := by
  intro event hevent
  obtain ⟨call, -, rfl⟩ := List.mem_map.mp hevent
  trivial

/-- Calls of `map` that spare the bitmap leave the marked pages as they are. -/
theorem mapAll_marked {calls : List MapRun.Call} (hsized : Sized bitmap h.kernel.allocator)
    (hspares : Meets (step console man) (Spares console man) h (mapEvents calls))
    (hpage : page < 8 * bitmap.size.toNat) :
    (mapAll console man h.kernel calls).allocator.Marked page ↔ h.kernel.allocator.Marked page := by
  induction calls generalizing h with
  | nil => exact Iff.rfl
  | cons call calls ih =>
      have hfirst : SparesMap console man call.1 call.2 h.kernel := hspares.1
      have hrest := ih (h := { h with kernel := man.map console call.1 call.2 h.kernel })
        (Sized.map hsized console man call.1 call.2) (hspares.2 _ rfl)
      exact hrest.trans (Sized.map_marked hsized hfirst hpage)

theorem free_mapAll {calls : List MapRun.Call} (hsized : Sized bitmap h.kernel.allocator)
    (hspares : Meets (step console man) (Spares console man) h (mapEvents calls)) :
    Free (mapAll console man h.kernel calls).allocator page ↔ Free h.kernel.allocator page := by
  have hbitmap := (mapAll_rewritten console man h.kernel calls).pageBitmap
  refine free_congr hbitmap fun page hpage => ?_
  rw [PageAllocator.reach, hsized.1] at hpage
  exact mapAll_marked hsized hspares hpage

/-! ## A directory apart from the bitmap -/

section Apart

variable {root : ℕ → Word64} {placement : Placement 512} {leaf : ℕ → Option Word64}

/-- With room in a directory that does not meet the bitmap, a call spares the bitmap if its
report does. -/
theorem sparesMap_of_represents (hrep : Represents man root placement leaf s)
    (hroot : NonePresent root)
    (hroom : Room man (insertPage placement (virtualPage virtualMemory)).count)
    (hapart : Disjoint (region man) console.touched)
    (hbitmap : Disjoint (region man ∪ console.touched)
      (bitmapStore s.allocator.pageBitmap s.allocator.pageBitmap.size.toNat)) :
    SparesMap console man virtualMemory physicalMemory s := by
  refine hbitmap.mono_left ((mapWrites_subset hrep hroot hroom hapart).trans ?_)
  apply Set.union_subset_union_right
  unfold reportWrites
  split_ifs
  · exact Set.empty_subset _
  · exact Set.Subset.rfl

/-- The same for a pass of `getPool`, which first marks a page of the bitmap. -/
theorem sparesPass_of_represents (hrep : Represents man root placement leaf h.kernel)
    (hroot : NonePresent root) (hsized : Sized bitmap h.kernel.allocator)
    (hroom : Room man (insertPage placement (virtualPage h.kernel.VAI)).count)
    (hapart : Disjoint (region man) console.touched)
    (hbitmap : Disjoint (region man ∪ console.touched)
      (bitmapStore bitmap bitmap.size.toNat)) : SparesPass console man h () := by
  obtain ⟨rfl, hsize, hpos⟩ := hsized
  intro frame allocator hget
  have hgranted := getPage_granted hsize hpos hget
  have hrep' : Represents man root placement leaf { h.kernel with allocator := allocator } :=
    represents_of_agreeOutside hrep (hroom.mono (count_le_insertPage _ _))
      (hbitmap.mono_left Set.subset_union_left) (getPage_agreeOutside hsize hpos hget) rfl
  refine sparesMap_of_represents hrep' hroot hroom hapart ?_
  change Disjoint _ (bitmapStore allocator.pageBitmap allocator.pageBitmap.size.toNat)
  rwa [hgranted.pageBitmap]

theorem spares_mapEvents {calls : List MapRun.Call}
    (hrep : Represents man root placement leaf h.kernel) (hroot : NonePresent root)
    (hroom : Room man (insertPages placement (calls.map fun call => virtualPage call.1)).count)
    (hapart : Disjoint (region man) console.touched)
    (hbitmap : Disjoint (region man ∪ console.touched)
      (bitmapStore h.kernel.allocator.pageBitmap h.kernel.allocator.pageBitmap.size.toNat)) :
    Meets (step console man) (Spares console man) h (mapEvents calls) := by
  induction calls generalizing h placement leaf with
  | nil => trivial
  | cons call calls ih =>
      have hfirst : Room man (insertPage placement (virtualPage call.1)).count :=
        hroom.mono (count_le_insertPages _ _)
      refine ⟨sparesMap_of_represents hrep hroot hfirst hapart hbitmap, ?_⟩
      rintro next hstep
      obtain rfl := Option.some.inj hstep
      refine ih (map_represents hrep hroot hfirst hapart call.2).1 hroom ?_
      rw [(map_rewritten console man call.1 call.2 h.kernel).pageBitmap]
      exact hbitmap

end Apart

/-- A bitmap before a directory below `0x1fff00`, on the console without a screen. -/
theorem disjoint_bitmapStore {count : ℕ}
    (hbefore : bitmap.buffer.toNat + count ≤ man.dirAddr.toNat)
    (hend : man.dirAddr.toNat + man.dirSize.toNat ≤ 0x1fff00) :
    Disjoint (region man ∪ headless.touched) (bitmapStore bitmap count) := by
  have hplace : ∀ address ∈ bitmapStore bitmap count, address.toNat < man.dirAddr.toNat := by
    intro address hmem
    have haddr : (address - bitmap.buffer).toNat < count := hmem
    have hlast := address.isLt
    rw [BitVec.toNat_sub] at haddr
    omega
  rw [Set.disjoint_left]
  rintro address (hregion | htouched) hmem
  · have hfirst := hregion.1
    have hlast := hplace address hmem
    omega
  · have hfirst := toNat_of_mem_headless htouched
    have hlast := hplace address hmem
    omega

end RedX.SparedBitmap
