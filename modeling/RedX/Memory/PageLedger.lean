import RedX.Memory.BootBitmap
import RedX.Memory.FreeCounter

/-!
# A ledger of owned pages

For each counter the ledger holds the pages that were set for it and have not been
cleared for it since.  One bit encodes both kinds, so a page may be set for one counter
and cleared for the other; a run keeps the two kinds apart exactly if no step clears a
page for a counter that does not own it, and `readMap` itself does so on the maps of
`BootApart` only.
-/

namespace RedX.PageLedger

open RedX.MachineWord
open RedX.ByteMemory
open RedX.BitArray
open RedX.CountedLoop
open RedX.PartialRun
open RedX.PageAllocation
open RedX.MemoryMap
open RedX.ReadMap
open RedX.PagePass

/-- An allocator with its ledger; `wrapped` records that a counter went below zero. -/
structure Tracked where
  alloc : PageAllocator
  pages : Counter → Finset ℕ
  wrapped : Bool

/-- The pages of a counter after a pass for it. -/
def recorded (sets : Bool) (pages flips : Finset ℕ) : Finset ℕ :=
  if sets then pages ∪ flips else pages \ flips

/-- The ledger after a pass. -/
def record (s : PageAllocator) (pass : Pass) (pages : Counter → Finset ℕ) :
    Counter → Finset ℕ
  | .used =>
      match pass.counter with
      | .used => recorded pass.sets (pages .used) (flipped s pass.sets pass.addrs)
      | .reserved => pages .used
  | .reserved =>
      match pass.counter with
      | .used => pages .reserved
      | .reserved => recorded pass.sets (pages .reserved) (flipped s pass.sets pass.addrs)

/-- The pass takes more from its counter than the counter holds. -/
def wraps (s : PageAllocator) (pass : Pass) : Bool :=
  !pass.sets &&
    decide ((total s pass.counter).toNat < 4096 * (flipped s pass.sets pass.addrs).card)

def trackStep (t : Tracked) (call : Call) : Option Tracked :=
  (perform t.alloc call).map fun s' =>
    { alloc := s'
      pages := record t.alloc call.pass t.pages
      wrapped := t.wrapped || wraps t.alloc call.pass }

/-- `readMap` with a ledger that is empty at the end of `bitmapInit`. -/
def trackMap (s : PageAllocator) (map : EfiMemoryMap) : Option Tracked :=
  (bitmapStage s map).bind fun cleared =>
    run trackStep ⟨cleared, fun _ => ∅, false⟩ (bootCalls cleared (getMemorySize s map).1 map)

/-- Reserved pages stay marked and are not handed out, each counter counts its own pages,
and no counter has gone below zero. -/
structure KeptApart (t : Tracked) : Prop where
  marked : ∀ page ∈ t.pages .reserved, t.alloc.Marked page
  granted : ∀ found s', t.alloc.getPage = some (found, s') →
    pageIndex found ∉ t.pages .reserved
  totals : ∀ counter, (total t.alloc counter).toNat = 4096 * (t.pages counter).card
  wrapped : t.wrapped = false

/-- The call clears only pages that were set for the counter it charges. -/
def ClearsOwn (t : Tracked) (call : Call) : Prop :=
  call.pass.sets = false →
    flipped t.alloc false call.pass.addrs ⊆ t.pages call.pass.counter

instance (t : Tracked) (call : Call) : Decidable (ClearsOwn t call) :=
  inferInstanceAs (Decidable (_ → _))

/-- The maps that `readMap` keeps apart: no tracked page that is released was locked
with the bitmap, or has a stale bit right after the bitmap. -/
def BootApart (map : EfiMemoryMap) (memory : Memory) : Prop :=
  ∀ page ≤ 8 * bitmapBytes map, page ∈ releasedPages map →
    page ∉ lockedPages map ∧
      ¬ (page = 8 * bitmapBytes map ∧ bitAt memory (bitmapBase map) page = true)

/-- The ledger's pages are marked pages in reach, and no page has two owners. -/
structure Tidy (t : Tracked) : Prop where
  size : t.alloc.pageBitmap.size.toNat < 2 ^ 32
  pos : 0 < t.alloc.pageBitmap.size.toNat
  reach : ∀ counter, ∀ page ∈ t.pages counter, page ≤ t.alloc.reach
  marked : ∀ counter, ∀ page ∈ t.pages counter, t.alloc.Marked page
  disjoint : ∀ page ∈ t.pages .used, page ∉ t.pages .reserved

variable {s s' : PageAllocator} {t t' : Tracked} {counter : Counter} {pass : Pass}
  {pages flips : Finset ℕ} {page : ℕ}

theorem Tidy.wellSized (htidy : Tidy t) : t.alloc.pageBitmap.WellSized :=
  htidy.size.le.trans (by omega)

/-- The pages of a tidy ledger fit a counter. -/
theorem card_le_of_reach (hsize : s.pageBitmap.size.toNat < 2 ^ 32)
    (hreach : ∀ page ∈ pages, page ≤ s.reach) : pages.card ≤ 2 ^ 36 := by
  have hsubset : pages ⊆ Finset.range (s.reach + 1) := fun page hpage =>
    Finset.mem_range.mpr (Nat.lt_succ_of_le (hreach page hpage))
  have hcard := Finset.card_le_card hsubset
  rw [Finset.card_range] at hcard
  unfold PageAllocator.reach at hcard
  omega

theorem card_flipped_le (hsize : s.pageBitmap.size.toNat < 2 ^ 32) (sets : Bool)
    (addrs : List Word64) : (flipped s sets addrs).card ≤ 2 ^ 36 :=
  card_le_of_reach hsize fun _ hflip => (mem_flipped.mp hflip).2.1

theorem flipped_le_reach (hflip : page ∈ flipped s pass.sets pass.addrs) : page ≤ s.reach :=
  (mem_flipped.mp hflip).2.1

theorem pageBytes_toNat {pages : ℕ} (hpages : pages ≤ 2 ^ 36) :
    (pageBytes pages).toNat = 4096 * pages := by
  rw [pageBytes, BitVec.toNat_ofNat]
  omega

theorem mem_record_of_sets {pages : Counter → Finset ℕ} (hsets : pass.sets = true) :
    page ∈ record s pass pages counter ↔
      page ∈ pages counter ∨ counter = pass.counter ∧ page ∈ flipped s pass.sets pass.addrs := by
  obtain ⟨sets, charged, addrs⟩ := pass
  cases hsets
  cases counter <;> cases charged <;> simp [record, recorded]

theorem mem_record_of_clears {pages : Counter → Finset ℕ} (hclears : pass.sets = false) :
    page ∈ record s pass pages counter ↔
      page ∈ pages counter ∧
        ¬ (counter = pass.counter ∧ page ∈ flipped s pass.sets pass.addrs) := by
  obtain ⟨sets, charged, addrs⟩ := pass
  cases hclears
  cases counter <;> cases charged <;> simp [record, recorded]

theorem record_self (s : PageAllocator) (pass : Pass) (pages : Counter → Finset ℕ) :
    record s pass pages pass.counter =
      recorded pass.sets (pages pass.counter) (flipped s pass.sets pass.addrs) := by
  obtain ⟨sets, charged, addrs⟩ := pass
  cases charged <;> rfl

theorem record_other {pages : Counter → Finset ℕ} (hother : counter ≠ pass.counter) :
    record s pass pages counter = pages counter := by
  obtain ⟨sets, charged, addrs⟩ := pass
  cases counter <;> cases charged <;> first | exact absurd rfl hother | rfl

/-- A tidy ledger that counts right is kept apart. -/
theorem Tidy.keptApart (htidy : Tidy t)
    (htotals : ∀ counter, (total t.alloc counter).toNat = 4096 * (t.pages counter).card)
    (hwrapped : t.wrapped = false) : KeptApart t where
  marked := htidy.marked .reserved
  granted := fun _ _ hget hreserved =>
    (getPage_granted htidy.wellSized htidy.pos hget).unmarked (htidy.marked .reserved _ hreserved)
  totals := htotals
  wrapped := hwrapped

/-- The ledger after a pass that ends in `s'`. -/
def Tracked.after (t : Tracked) (pass : Pass) (s' : PageAllocator) : Tracked where
  alloc := s'
  pages := record t.alloc pass t.pages
  wrapped := t.wrapped || wraps t.alloc pass

theorem after_pages (t : Tracked) (pass : Pass) (s' : PageAllocator) :
    (t.after pass s').pages = record t.alloc pass t.pages := rfl

theorem trackStep_eq_some {call : Call} (hstep : trackStep t call = some t') :
    ∃ s', perform t.alloc call = some s' ∧ t' = t.after call.pass s' := by
  rw [trackStep, Option.map_eq_some_iff] at hstep
  obtain ⟨s', hperform, rfl⟩ := hstep
  exact ⟨s', hperform, rfl⟩

/-! ## One pass -/

section OnePass

variable (hflips : Flips t.alloc pass.sets pass.counter
  (flipped t.alloc pass.sets pass.addrs) s')

include hflips

/-- The pages that a marking pass sets had no owner. -/
theorem after_tidy_of_sets (htidy : Tidy t) (hsets : pass.sets = true) :
    Tidy (t.after pass s') := by
  have hunowned : ∀ counter, ∀ page ∈ flipped t.alloc pass.sets pass.addrs,
      page ∉ t.pages counter := by
    intro counter page hflip howned
    have hclear := (mem_flipped.mp hflip).2.2.mp (htidy.marked counter _ howned)
    rw [hsets] at hclear
    cases hclear
  have hbitmap : (t.after pass s').alloc.pageBitmap = t.alloc.pageBitmap := hflips.pageBitmap
  have hin : ∀ counter, ∀ page ∈ record t.alloc pass t.pages counter, page ≤ t.alloc.reach := by
    intro counter page hpage
    rcases (mem_record_of_sets hsets).mp hpage with howned | ⟨-, hflip⟩
    · exact htidy.reach counter page howned
    · exact flipped_le_reach hflip
  refine ⟨hbitmap ▸ htidy.size, hbitmap ▸ htidy.pos, ?_, ?_, ?_⟩
  · intro counter page hpage
    exact (hin counter page hpage).trans_eq hflips.reach.symm
  · intro counter page hpage
    refine (hflips.marked page (hin counter page hpage)).mpr ?_
    split_ifs with hflip
    · exact hsets
    · rcases (mem_record_of_sets hsets).mp hpage with howned | ⟨-, hmem⟩
      · exact htidy.marked counter page howned
      · exact absurd hmem hflip
  · intro page hused hreserved
    rcases (mem_record_of_sets hsets).mp hused with husedOld | ⟨husedNew, hflip⟩
    · rcases (mem_record_of_sets hsets).mp hreserved with hold | ⟨-, hflip⟩
      · exact htidy.disjoint page husedOld hold
      · exact hunowned .used page hflip husedOld
    · rcases (mem_record_of_sets hsets).mp hreserved with hold | ⟨hreservedNew, -⟩
      · exact hunowned .reserved page hflip hold
      · exact absurd (husedNew.trans hreservedNew.symm) (by simp)

/-- A pass leaves the other counter and its pages alone. -/
theorem after_other (hother : counter ≠ pass.counter) :
    total (t.after pass s').alloc counter = total t.alloc counter ∧
      (t.after pass s').pages counter = t.pages counter :=
  ⟨hflips.kept counter hother, record_other hother⟩

theorem after_keptApart_of_sets (htidy : Tidy t) (hkept : KeptApart t)
    (hsets : pass.sets = true) : KeptApart (t.after pass s') := by
  have htidy' := after_tidy_of_sets hflips htidy hsets
  refine htidy'.keptApart (fun counter => ?_) ?_
  · by_cases hsame : counter = pass.counter
    · have hdisjoint : Disjoint (t.pages pass.counter) (flipped t.alloc pass.sets pass.addrs) := by
        rw [Finset.disjoint_left]
        intro page howned hflip
        have hclear := (mem_flipped.mp hflip).2.2.mp (htidy.marked _ _ howned)
        rw [hsets] at hclear
        cases hclear
      have hpages : (t.after pass s').pages pass.counter =
          t.pages pass.counter ∪ flipped t.alloc pass.sets pass.addrs := by
        rw [after_pages, record_self, recorded, if_pos hsets]
      have hcard := Finset.card_union_of_disjoint hdisjoint
      have hbound := card_le_of_reach htidy'.size (htidy'.reach pass.counter)
      have htotal : total s' pass.counter =
          total t.alloc pass.counter + pageBytes (flipped t.alloc pass.sets pass.addrs).card := by
        rw [hflips.charged, moved, if_pos hsets]
      rw [hpages, hcard] at hbound
      have hold := hkept.totals pass.counter
      have hnew := pageBytes_toNat
        (show (flipped t.alloc pass.sets pass.addrs).card ≤ 2 ^ 36 by omega)
      rw [hsame, hpages, hcard]
      change (total s' pass.counter).toNat = _
      rw [htotal, BitVec.toNat_add, hold, hnew]
      omega
    · obtain ⟨htotal, hpages⟩ := after_other hflips hsame
      rw [htotal, hpages, hkept.totals counter]
  · change (t.wrapped || wraps t.alloc pass) = false
    rw [hkept.wrapped, wraps, hsets]
    rfl

/-- A pass that clears only pages of its counter keeps the ledger tidy. -/
theorem after_tidy_of_clears (htidy : Tidy t) (hclears : pass.sets = false)
    (hown : flipped t.alloc pass.sets pass.addrs ⊆ t.pages pass.counter) :
    Tidy (t.after pass s') := by
  have hbitmap : (t.after pass s').alloc.pageBitmap = t.alloc.pageBitmap := hflips.pageBitmap
  have hold : ∀ counter, ∀ page ∈ record t.alloc pass t.pages counter,
      page ∈ t.pages counter := fun counter page hpage =>
    ((mem_record_of_clears hclears).mp hpage).1
  refine ⟨hbitmap ▸ htidy.size, hbitmap ▸ htidy.pos, ?_, ?_, ?_⟩
  · intro counter page hpage
    exact (htidy.reach counter page (hold counter page hpage)).trans_eq hflips.reach.symm
  · intro counter page hpage
    have howned := hold counter page hpage
    have hflip : page ∉ flipped t.alloc pass.sets pass.addrs := by
      intro hflip
      have hcharged := hown hflip
      have hsame : counter = pass.counter := by
        have hdisjoint := htidy.disjoint page
        by_contra hne
        cases counter with
        | used =>
            have hcounter : pass.counter = .reserved := by
              cases hcounter : pass.counter with
              | used => exact absurd hcounter.symm hne
              | reserved => rfl
            exact hdisjoint howned (hcounter ▸ hcharged)
        | reserved =>
            have hcounter : pass.counter = .used := by
              cases hcounter : pass.counter with
              | used => rfl
              | reserved => exact absurd hcounter.symm hne
            exact hdisjoint (hcounter ▸ hcharged) howned
      exact ((mem_record_of_clears hclears).mp hpage).2 ⟨hsame, hflip⟩
    refine (hflips.marked page (htidy.reach counter page howned)).mpr ?_
    rw [if_neg hflip]
    exact htidy.marked counter page howned
  · intro page hused hreserved
    exact htidy.disjoint page (hold .used page hused) (hold .reserved page hreserved)

/-- What is taken from the counter is 4096 for each page cleared, but the ledger loses
only the pages that were the counter's own. -/
theorem after_keptApart_iff_of_clears (htidy : Tidy t) (hkept : KeptApart t)
    (hclears : pass.sets = false) :
    KeptApart (t.after pass s') ↔
      flipped t.alloc pass.sets pass.addrs ⊆ t.pages pass.counter := by
  have hpages : (t.after pass s').pages pass.counter =
      t.pages pass.counter \ flipped t.alloc pass.sets pass.addrs := by
    rw [after_pages, record_self, recorded, if_neg (by simp [hclears])]
  have htotal : total s' pass.counter =
      total t.alloc pass.counter - pageBytes (flipped t.alloc pass.sets pass.addrs).card := by
    rw [hflips.charged, moved, if_neg (by simp [hclears])]
  have hbefore := hkept.totals pass.counter
  have hcards := Finset.card_sdiff_add_card_inter (t.pages pass.counter)
    (flipped t.alloc pass.sets pass.addrs)
  have hflipBytes := pageBytes_toNat (card_flipped_le htidy.size pass.sets pass.addrs)
  have hown : (flipped t.alloc pass.sets pass.addrs).card ≤ (t.pages pass.counter).card →
      (total s' pass.counter).toNat =
        4096 * ((t.pages pass.counter).card - (flipped t.alloc pass.sets pass.addrs).card) := by
    intro hle
    rw [htotal, BitVec.toNat_sub, hbefore, hflipBytes]
    have := (total t.alloc pass.counter).isLt
    omega
  constructor
  · intro hafter
    have hwraps : wraps t.alloc pass = false := (Bool.or_eq_false_iff.mp hafter.wrapped).2
    rw [wraps, hclears, Bool.not_false, Bool.true_and, decide_eq_false_iff_not, hbefore,
      ← hclears] at hwraps
    have hcount := hafter.totals pass.counter
    rw [hpages] at hcount
    change (total s' pass.counter).toNat = _ at hcount
    rw [hown (by omega)] at hcount
    have hall : (flipped t.alloc pass.sets pass.addrs).card ≤
        (t.pages pass.counter ∩ flipped t.alloc pass.sets pass.addrs).card := by
      omega
    have hinter := Finset.eq_of_subset_of_card_le Finset.inter_subset_right hall
    exact hinter ▸ Finset.inter_subset_left
  · intro hsubset
    have hle := Finset.card_le_card hsubset
    refine (after_tidy_of_clears hflips htidy hclears hsubset).keptApart (fun counter => ?_) ?_
    · by_cases hsame : counter = pass.counter
      · rw [hsame, hpages, Finset.card_sdiff_of_subset hsubset]
        exact hown hle
      · obtain ⟨hsameTotal, hsamePages⟩ := after_other hflips hsame
        rw [hsameTotal, hsamePages, hkept.totals counter]
    · change (t.wrapped || wraps t.alloc pass) = false
      rw [hkept.wrapped, wraps, Bool.false_or, Bool.and_eq_false_iff, decide_eq_false_iff_not,
        hbefore]
      exact Or.inr (by omega)

end OnePass

/-! ## One step -/

/-- A step keeps the two kinds of pages apart exactly if it clears no page of the other
kind. -/
theorem trackStep_keptApart_iff {call : Call} (htidy : Tidy t) (hkept : KeptApart t)
    (hstep : trackStep t call = some t') :
    (KeptApart t' ↔ ClearsOwn t call) ∧ (KeptApart t' → Tidy t') := by
  obtain ⟨s', hperform, rfl⟩ := trackStep_eq_some hstep
  have hflips := perform_flips htidy.wellSized hperform
  by_cases hsets : call.pass.sets = true
  · have htidy' := after_tidy_of_sets hflips htidy hsets
    refine ⟨⟨fun _ hclears => ?_, fun _ => ?_⟩, fun _ => htidy'⟩
    · rw [hsets] at hclears
      cases hclears
    · exact after_keptApart_of_sets hflips htidy hkept hsets
  · rw [Bool.not_eq_true] at hsets
    have hiff := after_keptApart_iff_of_clears hflips htidy hkept hsets
    refine ⟨hiff.trans ?_, fun hkept' => ?_⟩
    · rw [ClearsOwn, hsets]
      exact ⟨fun hown _ => hown, fun hown => hown rfl⟩
    · exact after_tidy_of_clears hflips htidy hsets (hiff.mp hkept')

theorem clearsOwn_of_none {call : Call} (hstep : trackStep t call = none) : ClearsOwn t call := by
  intro hclears
  rw [trackStep, Option.map_eq_none_iff] at hstep
  cases call <;> first | cases hstep | cases hclears

/-- In every state of a run from a tidy one the kinds are kept apart if and only if no
step clears a page of the other kind. -/
theorem throughout_keptApart_iff {calls : List Call} (htidy : KeptApart t → Tidy t) :
    Throughout trackStep KeptApart t calls ↔ KeptApart t ∧ Meets trackStep ClearsOwn t calls :=
  throughout_iff_meets Tidy htidy (fun _ _ _ _ _ hnone => clearsOwn_of_none hnone)
    fun _ _ _ hinv hkept hstep => trackStep_keptApart_iff hinv hkept hstep

/-! ## `readMap` -/

/-- Two clearing passes for one counter wrap it if one pass over all the pages does. -/
theorem wraps_append {left right : List Word64} (hsize : s.pageBitmap.size.toNat < 2 ^ 32)
    (hflips : Flips s false counter (flipped s false left) s') :
    (wraps s ⟨false, counter, left⟩ || wraps s' ⟨false, counter, right⟩) =
      wraps s ⟨false, counter, left ++ right⟩ := by
  obtain ⟨hunion, hdisjoint⟩ := flipped_append right hflips
  have hcard := Finset.card_union_of_disjoint hdisjoint
  have hbytes := pageBytes_toNat (card_flipped_le hsize false left)
  have htotal : total s' counter = total s counter - pageBytes (flipped s false left).card :=
    hflips.charged
  have hrest : 4096 * (flipped s false left).card ≤ (total s counter).toNat →
      (total s' counter).toNat = (total s counter).toNat - 4096 * (flipped s false left).card := by
    intro hle
    have hbound := (total s counter).isLt
    rw [htotal, BitVec.toNat_sub, hbytes]
    omega
  simp only [wraps, Bool.not_false, Bool.true_and]
  rw [← Bool.decide_or, decide_eq_decide, hunion, hcard]
  by_cases hle : 4096 * (flipped s false left).card ≤ (total s counter).toNat
  · rw [hrest hle]
    omega
  · omega

/-- Two clearing passes for one counter are recorded like one. -/
theorem after_append {left right : List Word64} (hsize : t.alloc.pageBitmap.size.toNat < 2 ^ 32)
    (hflips : Flips t.alloc false counter (flipped t.alloc false left) s) :
    (t.after ⟨false, counter, left⟩ s).after ⟨false, counter, right⟩ s' =
      t.after ⟨false, counter, left ++ right⟩ s' := by
  obtain ⟨hunion, -⟩ := flipped_append right hflips
  have hpages : record s ⟨false, counter, right⟩ (record t.alloc ⟨false, counter, left⟩ t.pages) =
      record t.alloc ⟨false, counter, left ++ right⟩ t.pages := by
    funext other
    ext page
    rw [mem_record_of_clears rfl, mem_record_of_clears rfl, mem_record_of_clears rfl, hunion,
      Finset.mem_union]
    tauto
  rw [Tracked.after, Tracked.after, Tracked.after, Tracked.mk.injEq]
  exact ⟨rfl, hpages, by rw [Bool.or_assoc, wraps_append hsize hflips]⟩

/-- The addresses of the last loop of `readMap`. -/
def releaseAddrs (map : EfiMemoryMap) : List Word64 :=
  (map.filter fun desc => desc.type = 7).flatMap fun desc => intSteps desc.physAddr desc.pages

theorem after_nil (t : Tracked) (counter : Counter) :
    t.after ⟨false, counter, []⟩ t.alloc = t := by
  have hpages : record t.alloc ⟨false, counter, []⟩ t.pages = t.pages := by
    funext other
    ext page
    rw [mem_record_of_clears rfl]
    simp
  have hwraps : wraps t.alloc ⟨false, counter, []⟩ = false := by simp [wraps]
  rw [Tracked.after, hpages, hwraps, Bool.or_false]

theorem trackStep_perform {call : Call} (hperform : perform t.alloc call = some s') :
    trackStep t call = some (t.after call.pass s') := by
  rw [trackStep, hperform]
  rfl

/-- The ledger does not influence the allocator. -/
theorem run_trackStep_alloc (t : Tracked) (calls : List Call) :
    (run trackStep t calls).map Tracked.alloc = run perform t.alloc calls := by
  induction calls generalizing t with
  | nil => rfl
  | cons call calls ih =>
      rw [run_cons, run_cons]
      cases hperform : perform t.alloc call with
      | none => rw [trackStep, hperform]; rfl
      | some s' =>
          rw [trackStep_perform hperform, Option.bind_some, Option.bind_some, ih]
          rfl

/-- The release loop is one clearing pass. -/
theorem run_releases (descs : EfiMemoryMap) (hsize : t.alloc.pageBitmap.size.toNat < 2 ^ 32) :
    ∃ s', Flips t.alloc false .reserved (flipped t.alloc false
        (descs.flatMap fun desc => intSteps desc.physAddr desc.pages)) s' ∧
      run trackStep t (descs.map fun desc => .releases desc.physAddr desc.pages) =
        some (t.after ⟨false, .reserved,
          descs.flatMap fun desc => intSteps desc.physAddr desc.pages⟩ s') := by
  induction descs generalizing t with
  | nil => exact ⟨t.alloc, Flips.refl _ _ _, congrArg some (after_nil t .reserved).symm⟩
  | cons desc descs ih =>
      have hwell : t.alloc.pageBitmap.WellSized := hsize.le.trans (by omega)
      have hperform : perform t.alloc (.releases desc.physAddr desc.pages) =
          some (t.alloc.releases desc.physAddr desc.pages) := rfl
      have hfirst := perform_flips hwell hperform
      obtain ⟨s', hrest, hrun⟩ := ih
        (t := t.after (Call.releases desc.physAddr desc.pages).pass
          (t.alloc.releases desc.physAddr desc.pages))
        ((congrArg (fun bitmap => bitmap.size.toNat) hfirst.pageBitmap).trans_lt hsize)
      refine ⟨s', hfirst.append hrest, ?_⟩
      rw [List.map_cons, run_cons, trackStep_perform hperform, Option.bind_some, hrun]
      exact congrArg some (after_append hsize hfirst)

theorem exists_releaseAddrs_iff {map : EfiMemoryMap} (hvalid : Valid map) (page : ℕ) :
    (∃ addr ∈ releaseAddrs map, pageIndex addr = page) ↔ page ∈ releasedPages map := by
  have hsteps : ∀ desc : EfiMemoryDescriptor,
      (∃ addr ∈ intSteps desc.physAddr desc.pages, pageIndex addr = page) ↔
        ∃ i < intPasses desc.pages,
          page = pageIndex (intStep desc.physAddr (BitVec.ofNat 32 i)) := by
    intro desc
    simp only [intSteps, List.mem_map, List.mem_range]
    constructor
    · rintro ⟨-, ⟨i, hi, rfl⟩, rfl⟩
      exact ⟨i, hi, rfl⟩
    · rintro ⟨i, hi, rfl⟩
      exact ⟨_, ⟨i, hi, rfl⟩, rfl⟩
  constructor
  · rintro ⟨addr, haddr, hpage⟩
    obtain ⟨desc, hdesc, hstep⟩ := List.mem_flatMap.mp haddr
    obtain ⟨hmem, htype⟩ := List.mem_filter.mp hdesc
    refine ⟨desc, hmem, of_decide_eq_true htype, ?_⟩
    rw [← exists_release_step_iff (hvalid.inside desc hmem), ← hsteps]
    exact ⟨addr, hstep, hpage⟩
  · rintro ⟨desc, hmem, htype, hreleased⟩
    rw [← exists_release_step_iff (hvalid.inside desc hmem), ← hsteps] at hreleased
    obtain ⟨addr, hstep, hpage⟩ := hreleased
    have hdesc : desc ∈ map.filter fun desc => desc.type = 7 :=
      List.mem_filter.mpr ⟨hmem, decide_eq_true htype⟩
    exact ⟨addr, List.mem_flatMap.mpr ⟨desc, hdesc, hstep⟩, hpage⟩

section Boot

variable {map : EfiMemoryMap} {cleared : PageAllocator}

/-- The one bit in reach that `bitmapInit` does not clear is the first after the bitmap. -/
theorem Cleared.marked_iff (hcleared : Cleared map s cleared) (hpage : page ≤ 8 * bitmapBytes map) :
    cleared.Marked page ↔
      page = 8 * bitmapBytes map ∧ bitAt s.memory (bitmapBase map) page = true := by
  have hsmall := hcleared.small
  rw [PageAllocator.Marked, hcleared.pageBitmap, hcleared.memory]
  change bitAt _ (bitmapBase map) page = true ↔ _
  by_cases hlast : page = 8 * bitmapBytes map
  · have hoffset := offset_add_ofNat (bitmapBase map) (show page / 8 < 2 ^ 64 by omega)
    rw [bitAt, store_of_le_offset (by omega), ← bitAt]
    exact ⟨fun hset => ⟨hlast, hset⟩, And.right⟩
  · rw [bitAt_cleared (by omega) (by omega)]
    simp [hlast]

/-- The pages marked once `readMap` has locked the bitmap. -/
theorem Cleared.locked_marked_iff (hcleared : Cleared map s cleared)
    (hpage : page ≤ 8 * bitmapBytes map) :
    (cleared.locks cleared.pageBitmap.buffer (cleared.pageBitmap.size / 4096 + 1)).Marked page ↔
      page ∈ lockedPages map ∨
        page = 8 * bitmapBytes map ∧ bitAt s.memory (bitmapBase map) page = true := by
  have hsize := hcleared.size_toNat
  have hsmall := hcleared.small
  have hcount : (cleared.pageBitmap.size / 4096 + 1).toNat = bitmapBytes map / 4096 + 1 := by
    rw [BitVec.toNat_add, BitVec.toNat_udiv, hsize]
    change (bitmapBytes map / 4096 + 1) % 2 ^ 64 = _
    omega
  have hbuffer : cleared.pageBitmap.buffer = bitmapBase map := by rw [hcleared.pageBitmap]
  have hreach : page ≤ cleared.reach := hpage.trans_eq (congrArg (8 * ·) hsize.symm)
  have hwell : cleared.pageBitmap.WellSized := hsize.trans_le (by omega)
  rw [marked_locks hwell hreach, hcount, hbuffer, exists_lock_step_iff,
    Cleared.marked_iff hcleared hpage, or_comm]

/-- The release pass of `readMap` clears reserved pages only if the map is apart. -/
theorem flipped_subset_iff (hvalid : Valid map) (hreach : s.reach = 8 * bitmapBytes map)
    {addrs : List Word64}
    (hflips : Flips s true .reserved (flipped s true addrs) s') :
    flipped s' false (releaseAddrs map) ⊆ flipped s true addrs ↔
      ∀ page ≤ 8 * bitmapBytes map, page ∈ releasedPages map → ¬ s.Marked page := by
  have hmarked : ∀ page ≤ 8 * bitmapBytes map,
      (s'.Marked page ↔ page ∈ flipped s true addrs ∨ s.Marked page) := by
    intro page hpage
    rw [hflips.marked page (by rwa [hreach])]
    split_ifs with hflip <;> simp [hflip]
  constructor
  · intro hsubset page hpage hreleased hset
    have hflip : page ∈ flipped s' false (releaseAddrs map) := by
      rw [mem_flipped, exists_releaseAddrs_iff hvalid, hflips.reach, hreach]
      exact ⟨hreleased, hpage, by simp [(hmarked page hpage).mpr (Or.inr hset)]⟩
    have hclear := (mem_flipped.mp (hsubset hflip)).2.2.mp hset
    cases hclear
  · intro hfree page hflip
    rw [mem_flipped, exists_releaseAddrs_iff hvalid, hflips.reach, hreach] at hflip
    obtain ⟨hreleased, hpage, hset⟩ := hflip
    rcases (hmarked page hpage).mp (hset.mpr rfl) with hreserved | hearlier
    · exact hreserved
    · exact absurd hearlier (hfree page hpage hreleased)

/-- A call that only marks keeps the two kinds of pages apart. -/
theorem marking_step {call : Call} (hsets : call.pass.sets = true) (htidy : Tidy t)
    (hkept : KeptApart t) (hperform : perform t.alloc call = some s') :
    trackStep t call = some (t.after call.pass s') ∧ Tidy (t.after call.pass s') ∧
      KeptApart (t.after call.pass s') := by
  have hflips := perform_flips htidy.wellSized hperform
  exact ⟨trackStep_perform hperform, after_tidy_of_sets hflips htidy hsets,
    after_keptApart_of_sets hflips htidy hkept hsets⟩

theorem boot_keptApart_iff (hvalid : Valid map) (hfresh : Fresh s)
    (hzero : ∀ counter, total s counter = 0) (htrack : trackMap s map = some t) :
    (KeptApart t ↔ BootApart map s.memory) ∧ (KeptApart t → Tidy t) := by
  rw [trackMap, Option.bind_eq_some_iff] at htrack
  obtain ⟨cleared, hstage, hrun⟩ := htrack
  have hcleared := bitmapStage_cleared hvalid hfresh.2 hstage
  have hsize := hcleared.size_toNat
  have hsmall := hcleared.small
  let start : Tracked := ⟨cleared, fun _ => ∅, false⟩
  have hpos : 0 < bitmapBytes map := Nat.succ_pos _
  have htidy : Tidy start :=
    ⟨hsize.trans_lt hsmall, hpos.trans_eq hsize.symm, by simp [start], by simp [start],
      by simp [start]⟩
  have hkept : KeptApart start := by
    refine htidy.keptApart (fun counter => ?_) rfl
    change (total cleared counter).toNat = 0
    rw [hcleared.totals, hzero]
    rfl
  -- the two marking passes
  let locking : Call := .locks cleared.pageBitmap.buffer (cleared.pageBitmap.size / 4096 + 1)
  let reserving : Call := .reserves 0 ((getMemorySize s map).1 / 4096 + 1)
  let locked := cleared.locks cleared.pageBitmap.buffer (cleared.pageBitmap.size / 4096 + 1)
  let reserved := locked.reserves 0 ((getMemorySize s map).1 / 4096 + 1)
  obtain ⟨hlockStep, htidyLocked, hkeptLocked⟩ :=
    marking_step (rfl : locking.pass.sets = true) htidy hkept (rfl : _ = some locked)
  let marked := (start.after locking.pass locked).after reserving.pass reserved
  obtain ⟨hreserveStep, htidyMarked, hkeptMarked⟩ :
      trackStep (start.after locking.pass locked) reserving = some marked ∧ Tidy marked ∧
        KeptApart marked :=
    marking_step (rfl : reserving.pass.sets = true) htidyLocked hkeptLocked
      (rfl : _ = some reserved)
  -- the release pass
  obtain ⟨released, hreleases, hlast⟩ :=
    run_releases (t := marked) (map.filter fun desc => desc.type = 7) htidyMarked.size
  have hfinal : t = marked.after ⟨false, .reserved, releaseAddrs map⟩ released := by
    rw [bootCalls, run_cons, hlockStep, Option.bind_some, run_cons, hreserveStep,
      Option.bind_some, releaseCalls] at hrun
    exact Option.some.inj (hrun.symm.trans hlast)
  have hpages : marked.pages .reserved = flipped locked true reserving.pass.addrs := by
    change (∅ : Finset ℕ) ∪ _ = _
    exact Finset.empty_union _
  have hreach : locked.reach = 8 * bitmapBytes map := by
    rw [PageAllocator.reach, locks_pageBitmap, hsize]
  rw [hfinal]
  let releasing : Pass := ⟨false, .reserved, releaseAddrs map⟩
  have hiff : KeptApart (marked.after releasing released) ↔
      flipped marked.alloc false (releaseAddrs map) ⊆ marked.pages .reserved :=
    after_keptApart_iff_of_clears hreleases htidyMarked hkeptMarked rfl
  refine ⟨hiff.trans ?_, fun hkept' => ?_⟩
  · rw [hpages]
    have hreserves : Flips locked true .reserved _ reserved :=
      perform_flips htidyLocked.wellSized (rfl : perform locked reserving = some reserved)
    refine (flipped_subset_iff hvalid hreach hreserves).trans ?_
    refine forall₂_congr fun page hpage => ?_
    rw [Cleared.locked_marked_iff hcleared hpage, not_or]
  · have htidyReleased : Tidy (marked.after releasing released) :=
      after_tidy_of_clears hreleases htidyMarked rfl (hiff.mp hkept')
    exact htidyReleased

/-- The allocator of a tracked start-up is the one that `readMap` leaves. -/
theorem trackMap_alloc (hinitialized : s.initialized = false) :
    (trackMap s map).map Tracked.alloc = readMap s map := by
  rw [readMap_eq_run hinitialized, trackMap, Option.map_bind]
  congr 1
  funext cleared
  exact run_trackStep_alloc ⟨cleared, fun _ => ∅, false⟩ _

/-- In every state from `readMap` on, through any sequence of calls, the reserved and the
used pages are kept apart if and only if the map is apart and every call clears only pages
that were set for the counter it charges. -/
theorem readMap_kept_apart_iff {calls : List Call} (hvalid : Valid map) (hfresh : Fresh s)
    (hzero : ∀ counter, total s counter = 0) (htrack : trackMap s map = some t) :
    Throughout trackStep KeptApart t calls ↔
      BootApart map s.memory ∧ Meets trackStep ClearsOwn t calls := by
  obtain ⟨hboot, htidy⟩ := boot_keptApart_iff hvalid hfresh hzero htrack
  rw [throughout_keptApart_iff htidy, hboot]

/-- Four pages at `0x64000`: the bitmap lies outside of what it tracks.  Page 6 is locked
and freed. -/
theorem readMap_kept_apart_high :
    ∃ t, trackMap (atBoot fun _ => 0) (oneSegment 0x64000 4) = some t ∧
      Throughout trackStep KeptApart t [.lock 0x6000, .getPage 0x5000, .free 0x6000] := by
  have hmeets : (trackMap (atBoot fun _ => 0) (oneSegment 0x64000 4)).map (fun t =>
      decide (Meets trackStep ClearsOwn t [.lock 0x6000, .getPage 0x5000, .free 0x6000])) =
        some true := by
    decide +kernel
  rw [Option.map_eq_some_iff] at hmeets
  obtain ⟨t, htrack, hmeets⟩ := hmeets
  have hzero : ∀ counter, total (atBoot fun _ => 0) counter = 0 := by
    intro counter
    cases counter <;> rfl
  refine ⟨t, htrack, ?_⟩
  refine (readMap_kept_apart_iff (oneSegment_valid (by decide) (by decide) (by decide))
    (fresh_atBoot _) hzero htrack).mpr ⟨?_, of_decide_eq_true hmeets⟩
  rintro page hpage ⟨desc, hdesc, -, hreleased⟩
  have hbytes : bitmapBytes (oneSegment 0x64000 4) = 1 := by decide
  rw [oneSegment, List.mem_singleton] at hdesc
  rw [hbytes] at hpage
  subst hdesc
  rcases hreleased with ⟨⟨hfirst, -⟩, -⟩ | ⟨k, -, hlong, -⟩
  · change 100 ≤ page at hfirst
    omega
  · change _ < 4 at hlong
    omega

/-- Two pages of memory at `0x1000`: the page of the bitmap is locked and then released,
so `reservedMem` is 0 although page 0 is still reserved. -/
theorem locked_then_released :
    Valid (oneSegment 0x1000 2) ∧
      ∃ t, trackMap (atBoot fun _ => 0) (oneSegment 0x1000 2) = some t ∧
        t.alloc.reservedMem = 0 ∧ (t.pages .reserved).card = 1 ∧
        ¬ Throughout trackStep KeptApart t [] := by
  refine ⟨oneSegment_valid (by decide) (by decide) (by decide), ?_⟩
  have htotals : (trackMap (atBoot fun _ => 0) (oneSegment 0x1000 2)).map (fun t =>
      (t.alloc.reservedMem, (t.pages .reserved).card)) = some (0, 1) := by
    decide +kernel
  rw [Option.map_eq_some_iff] at htotals
  obtain ⟨t, htrack, htotals⟩ := htotals
  obtain ⟨hreserved, hcard⟩ := Prod.mk.inj htotals
  refine ⟨t, htrack, hreserved, hcard, fun hthroughout => ?_⟩
  have hcount : t.alloc.reservedMem.toNat = _ := hthroughout.initial.totals .reserved
  rw [hreserved, hcard] at hcount
  cases hcount

end Boot

end RedX.PageLedger
