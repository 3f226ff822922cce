import RedX.Memory.FreePages
import RedX.Paging.MapRun

/-!
# Runs of the memory code

After start-up the kernel calls the allocator, `map` and `getPool` in any order.  A run is
a list of such calls, and its history keeps the pages that `getPage` returned and the calls of
`map` that the pools made.  `VAI` only moves forward, so the pages of the pools are known
from their sizes (`pages_of_run`).
-/

namespace RedX.KernelRun

open RedX.MachineWord
open RedX.PartialRun
open RedX.PagePass
open RedX.FreePages
open RedX.TableEntry
open RedX.PageTables

/-- The kernel, the pages that calls of `getPage` have returned and the calls of `map` that
`getPool` has made. -/
structure History where
  kernel : Kernel
  granted : List Word64
  mapped : List MapRun.Call

def History.start (s : Kernel) : History := ⟨s, [], []⟩

inductive Event
  | call (call : PagePass.Call)
  | map (virtualMemory physicalMemory : Word64)
  | getPool (size : Word64)

/-- One pass of the loop of `getPool`. -/
def pass (console : Console) (man : PTableMan) (h : History) (_ : Unit) : Option History :=
  h.kernel.allocator.getPage.map fun granted =>
    let s := man.map console h.kernel.VAI granted.1 { h.kernel with allocator := granted.2 }
    { h with
      kernel := { s with cur := s.cur.newLine, VAI := s.VAI + 0x1000 }
      mapped := h.mapped ++ [(h.kernel.VAI, granted.1)] }

/-- The passes that the loop makes for a size. -/
def passes (size : Word64) : List Unit :=
  let pages : Word32 := (size / 0x1000 + 1).setWidth 32
  List.replicate pages.toNat ()

/-- The end of `getPool`. -/
def History.skipPage (h : History) : History :=
  { h with kernel := { h.kernel with VAI := h.kernel.VAI + 0x1000 } }

/-- The page that the call returned, if it is one of `getPage`. -/
def returned : PagePass.Call → List Word64
  | .getPage found => [found]
  | _ => []

def step (console : Console) (man : PTableMan) (h : History) : Event → Option History
  | .call call =>
      (perform h.kernel.allocator call).map fun allocator =>
        { h with
          kernel := { h.kernel with allocator := allocator }
          granted := h.granted ++ returned call }
  | .map virtualMemory physicalMemory =>
      some { h with kernel := man.map console virtualMemory physicalMemory h.kernel }
  | .getPool size =>
      (run (pass console man) h (passes size)).map History.skipPage

variable {console : Console} {man : PTableMan} {h h' : History} {event : Event}
  {events : List Event} {size : Word64} {first count page : ℕ}

/-! ## The history does not influence the kernel -/

theorem run_pass_kernel (console : Console) (man : PTableMan) (count : ℕ) (h : History) :
    (run (pass console man) h (List.replicate count ())).map History.kernel =
      man.mapPages console count h.kernel := by
  induction count generalizing h with
  | zero => rfl
  | succ count ih =>
      rw [List.replicate_succ, run_cons, pass, PTableMan.mapPages]
      cases h.kernel.allocator.getPage with
      | none => rfl
      | some granted => exact ih _

theorem step_getPool_kernel (console : Console) (man : PTableMan) (size : Word64) (h : History) :
    (step console man h (.getPool size)).map History.kernel =
      (man.getPool console size h.kernel).map Prod.snd := by
  rw [step, PTableMan.getPool, ← run_pass_kernel console man _ h, ← passes]
  cases run (pass console man) h (passes size) <;> rfl

/-- A list of calls of `map` as events. -/
def mapEvents (calls : List MapRun.Call) : List Event := calls.map fun call => .map call.1 call.2

theorem run_mapEvents (console : Console) (man : PTableMan) (calls : List MapRun.Call)
    (h : History) :
    run (step console man) h (mapEvents calls) =
      some { h with kernel := MapRun.mapAll console man h.kernel calls } := by
  induction calls generalizing h with
  | nil => rfl
  | cons call calls ih => exact ih _

/-- A free page is enough for a pool of one page. -/
theorem getPool_of_free (console : Console) (man : PTableMan)
    (hsize : h.kernel.allocator.pageBitmap.WellSized) (hfree : Free h.kernel.allocator page) :
    ∃ h', step console man h (.getPool 0) = some h' := by
  obtain ⟨found, allocator, hget⟩ := getPage_of_free hsize hfree
  have hpasses : passes 0 = [()] := by decide
  rw [step, hpasses, run_cons, pass, hget]
  exact ⟨_, rfl⟩

/-! ## The pages of the pools -/

/-- `count` pages from page `first` on. -/
structure Span where
  first : ℕ
  count : ℕ

/-- The page is one of the span, in the 48-bit space of the walk. -/
def Span.Holds (span : Span) (page : ℕ) : Prop :=
  ∃ i < span.count, (span.first + i) % 2 ^ 36 = page

instance (span : Span) (page : ℕ) : Decidable (span.Holds page) :=
  inferInstanceAs (Decidable (∃ _ < _, _))

/-- The pages that the loop of `getPool` maps for a size. -/
def poolCount (size : Word64) : ℕ := (size.toNat / 4096 + 1) % 2 ^ 32

/-- The pools, one after the other with one page between them. -/
def poolSpans : ℕ → List Word64 → List Span
  | _, [] => []
  | first, size :: sizes => ⟨first, poolCount size⟩ :: poolSpans (first + poolCount size + 1) sizes

def poolSize : Event → Option Word64
  | .getPool size => some size
  | _ => none

def History.pages (h : History) : Set ℕ := {page | ∃ call ∈ h.mapped, virtualPage call.1 = page}

/-- `VAI` stands at the page. -/
def StandsAt (first : ℕ) (h : History) : Prop := virtualPage h.kernel.VAI = first % 2 ^ 36

theorem pages_skipPage (h : History) : h.skipPage.pages = h.pages := by
  rw [History.pages, History.skipPage, History.pages]

theorem length_passes (size : Word64) : (passes size).length = poolCount size := by
  have hsize := size.isLt
  rw [passes, List.length_replicate, BitVec.toNat_setWidth, BitVec.toNat_add, BitVec.toNat_udiv]
  change (size.toNat / 4096 + 1) % 2 ^ 64 % 2 ^ 32 = _
  unfold poolCount
  omega

theorem virtualPage_add_page (addr : Word64) :
    virtualPage (addr + 0x1000) = (virtualPage addr + 1) % 2 ^ 36 := by
  unfold virtualPage
  rw [toNat_add_page]
  omega

theorem pass_eq_some (hpass : pass console man h () = some h') :
    ∃ frame allocator, h.kernel.allocator.getPage = some (frame, allocator) ∧
      h'.mapped = h.mapped ++ [(h.kernel.VAI, frame)] ∧ h'.granted = h.granted ∧
      h'.kernel.allocator =
        (man.map console h.kernel.VAI frame { h.kernel with allocator := allocator }).allocator ∧
      h'.kernel.VAI = h.kernel.VAI + 0x1000 := by
  rw [pass, Option.map_eq_some_iff] at hpass
  obtain ⟨⟨frame, allocator⟩, hget, rfl⟩ := hpass
  refine ⟨frame, allocator, hget, rfl, rfl, rfl, ?_⟩
  change (man.map console _ _ _).VAI + 0x1000 = _
  rw [(map_rewritten console man _ _ _).VAI]

theorem pages_of_pass (hstands : StandsAt first h) (hpass : pass console man h () = some h') :
    StandsAt (first + 1) h' ∧ h'.pages = h.pages ∪ {first % 2 ^ 36} := by
  obtain ⟨frame, allocator, -, hmapped, -, -, hVAI⟩ := pass_eq_some hpass
  constructor
  · unfold StandsAt at hstands ⊢
    rw [hVAI, virtualPage_add_page, hstands]
    omega
  · ext page
    simp only [History.pages, hmapped, List.mem_append, List.mem_singleton, Set.mem_union,
      Set.mem_ofPred_eq, Set.mem_singleton_iff, or_and_right, exists_or, exists_eq_left]
    rw [hstands, eq_comm (a := page)]

theorem holds_succ (first count page : ℕ) :
    Span.Holds ⟨first, count + 1⟩ page ↔
      first % 2 ^ 36 = page ∨ Span.Holds ⟨first + 1, count⟩ page := by
  constructor
  · rintro ⟨i, hi, rfl⟩
    cases i with
    | zero => exact Or.inl rfl
    | succ i => exact Or.inr ⟨i, Nat.lt_of_succ_lt_succ hi, by rw [Nat.add_right_comm]; rfl⟩
  · rintro (rfl | ⟨i, hi, rfl⟩)
    · exact ⟨0, Nat.succ_pos count, rfl⟩
    · exact ⟨i + 1, Nat.succ_lt_succ hi, by rw [Nat.add_right_comm]; rfl⟩

theorem pages_of_passes (hstands : StandsAt first h)
    (hrun : run (pass console man) h (List.replicate count ()) = some h') :
    StandsAt (first + count) h' ∧ h'.pages = h.pages ∪ {page | Span.Holds ⟨first, count⟩ page} := by
  induction count generalizing h first with
  | zero =>
      cases hrun
      refine ⟨hstands, ?_⟩
      simp [Span.Holds]
  | succ count ih =>
      rw [List.replicate_succ, run_cons, Option.bind_eq_some_iff] at hrun
      obtain ⟨next, hpass, hrun⟩ := hrun
      obtain ⟨hnext, hpages⟩ := pages_of_pass hstands hpass
      obtain ⟨hlast, hrest⟩ := ih hnext hrun
      refine ⟨by rwa [← Nat.add_assoc, Nat.add_right_comm], ?_⟩
      rw [hrest, hpages, Set.union_assoc]
      congr 1
      ext page
      rw [Set.mem_union, Set.mem_singleton_iff, Set.mem_ofPred_eq, Set.mem_ofPred_eq, holds_succ,
        eq_comm]

/-- Only the pools move `VAI` and map pages for themselves. -/
theorem pages_of_step (hstands : StandsAt first h) (hstep : step console man h event = some h') :
    match poolSize event with
    | some size => StandsAt (first + poolCount size + 1) h' ∧
        h'.pages = h.pages ∪ {page | Span.Holds ⟨first, poolCount size⟩ page}
    | none => StandsAt first h' ∧ h'.pages = h.pages := by
  cases event with
  | call call =>
      rw [step, Option.map_eq_some_iff] at hstep
      obtain ⟨allocator, -, rfl⟩ := hstep
      exact ⟨hstands, rfl⟩
  | map virtualMemory physicalMemory =>
      rw [step, Option.some.injEq] at hstep
      subst hstep
      refine ⟨?_, rfl⟩
      change virtualPage (man.map console _ _ _).VAI = _
      rwa [(map_rewritten console man _ _ _).VAI]
  | getPool size =>
      rw [step, Option.map_eq_some_iff] at hstep
      obtain ⟨next, hrun, rfl⟩ := hstep
      have hcount : passes size = List.replicate (poolCount size) () := by
        rw [← length_passes, List.eq_replicate_length]
        exact fun _ _ => rfl
      rw [hcount] at hrun
      obtain ⟨hnext, hpages⟩ := pages_of_passes hstands hrun
      refine ⟨?_, (pages_skipPage next).trans hpages⟩
      unfold StandsAt at hnext ⊢
      rw [History.skipPage, virtualPage_add_page, hnext]
      omega

/-- The pages that the pools of a run have mapped. -/
theorem pages_of_run (hstands : StandsAt first h)
    (hrun : run (step console man) h events = some h') :
    h'.pages = h.pages ∪
      {page | ∃ span ∈ poolSpans first (events.filterMap poolSize), span.Holds page} := by
  induction events generalizing h first with
  | nil =>
      cases hrun
      simp [poolSpans]
  | cons event events ih =>
      rw [run_cons, Option.bind_eq_some_iff] at hrun
      obtain ⟨next, hstep, hrun⟩ := hrun
      have hnext := pages_of_step hstands hstep
      cases hsize : poolSize event with
      | none =>
          rw [hsize] at hnext
          rw [List.filterMap_cons_none hsize, ih hnext.1 hrun, hnext.2]
      | some size =>
          rw [hsize] at hnext
          rw [List.filterMap_cons_some hsize, ih hnext.1 hrun, hnext.2, poolSpans, Set.union_assoc]
          congr 1
          ext page
          simp

end RedX.KernelRun
