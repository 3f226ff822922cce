import RedX.Core.PartialRun
import RedX.Memory.PageAllocation

/-!
# Ownership of pages

A run interleaves calls of the allocator with stores that other code makes
outside the bitmap.  A page that has been granted by `getPage`, or marked by
`lock` or `locks`, stays marked until `free` is called on an address in it, and
`getPage` grants unmarked pages only.
-/

namespace RedX.PageOwnership

open RedX.MachineWord
open RedX.ByteMemory
open RedX.BitArray
open RedX.PartialRun
open RedX.PageBitmap
open RedX.PageAllocation

/-- One step of a run; `got page` is a call of `getPage` that returned `page`. -/
inductive Event
  | got (page : Word64)
  | lock (addr : Word64)
  | locks (addr count : Word64)
  | free (addr : Word64)
  | store (addr : Word64) (value : Byte)

def step (s : PageAllocator) : Event → Option PageAllocator
  | .got page =>
      match s.getPage with
      | some (found, s') => if found = page then some s' else none
      | none => none
  | .lock addr => some (s.lock addr)
  | .locks addr count => some (s.locks addr count)
  | .free addr => some (s.free addr)
  | .store addr value => some { s with memory := store8 s.memory addr value }

/-- The event hands the page to a caller, or sets its bit on a caller's behalf. -/
def Acquires : Event → ℕ → Prop
  | .got found, page => pageIndex found = page
  | .lock addr, page => pageIndex addr = page
  | .locks addr count, page => ∃ i < count.toNat, page = pageIndex (wideStep addr i)
  | .free _, _ => False
  | .store _ _, _ => False

/-- The bytes `[buffer, buffer + size)` are written by the allocator only. -/
def BitmapPrivate (bitmap : Bitmap) (events : List Event) : Prop :=
  ∀ addr value, Event.store addr value ∈ events →
    bitmap.size.toNat ≤ offset bitmap.buffer addr

/-- The bitmap of every state is a non-empty one that `size * 8` fits. -/
def Sized (bitmap : Bitmap) (s : PageAllocator) : Prop :=
  s.pageBitmap = bitmap ∧ bitmap.WellSized ∧ 0 < bitmap.size.toNat

variable {bitmap : Bitmap} {s s' : PageAllocator} {event : Event} {events : List Event}
variable {page : ℕ}

theorem step_got {found : Word64} (hstep : step s (.got found) = some s') :
    s.getPage = some (found, s') := by
  rw [step] at hstep
  split at hstep
  · rename_i hget
    split at hstep
    · rename_i hfound
      rw [hget, hfound, Option.some.inj hstep]
    · simp at hstep
  · simp at hstep

theorem step_sized (hsized : Sized bitmap s) (hstep : step s event = some s') :
    Sized bitmap s' := by
  obtain ⟨rfl, hsize, hpos⟩ := hsized
  refine ⟨?_, hsize, hpos⟩
  cases event with
  | got found => exact (getPage_granted hsize hpos (step_got hstep)).pageBitmap
  | lock addr =>
      cases hstep
      exact lock_pageBitmap s addr
  | locks addr count =>
      cases hstep
      exact locks_pageBitmap s addr count
  | free addr =>
      cases hstep
      exact free_pageBitmap s addr
  | store addr value =>
      cases hstep
      rfl

/-- A store outside the bitmap leaves every tracked bit alone. -/
theorem bitAt_store8_outside {memory : Memory} {addr : Word64} {value : Byte}
    (hsize : bitmap.WellSized) (houtside : bitmap.size.toNat ≤ offset bitmap.buffer addr)
    (hpage : page < 8 * bitmap.size.toNat) :
    bitAt (store8 memory addr value) bitmap.buffer page =
      bitAt memory bitmap.buffer page := by
  have hoffset := offset_lt bitmap.buffer addr
  unfold Bitmap.WellSized at hsize
  rw [← add_offset bitmap.buffer addr, bitAt_store8 _ _ _ hoffset (by omega), if_neg (by omega)]

theorem step_acquires (hsized : Sized bitmap s) (hstep : step s event = some s')
    (hacquires : Acquires event page) (hpage : page < 8 * bitmap.size.toNat) :
    s'.Marked page := by
  obtain ⟨rfl, hsize, hpos⟩ := hsized
  have hreach : page ≤ s.reach := Nat.le_of_lt hpage
  cases event with
  | got found =>
      rw [(getPage_granted hsize hpos (step_got hstep)).marked page hreach]
      exact Or.inr hacquires.symm
  | lock addr =>
      cases hstep
      rw [marked_lock hsize hreach]
      exact Or.inr hacquires.symm
  | locks addr count =>
      cases hstep
      rw [marked_locks hsize hreach]
      exact Or.inr hacquires
  | free addr => exact hacquires.elim
  | store addr value => exact hacquires.elim

/-- A marked page stays marked by every step but a `free` on that page. -/
theorem step_keeps (hsized : Sized bitmap s) (hstep : step s event = some s')
    (hprivate : ∀ addr value, event = .store addr value →
      bitmap.size.toNat ≤ offset bitmap.buffer addr)
    (hkept : ∀ addr, event = .free addr → pageIndex addr ≠ page)
    (hpage : page < 8 * bitmap.size.toNat) (hmarked : s.Marked page) : s'.Marked page := by
  obtain ⟨rfl, hsize, hpos⟩ := hsized
  have hreach : page ≤ s.reach := Nat.le_of_lt hpage
  cases event with
  | got found =>
      rw [(getPage_granted hsize hpos (step_got hstep)).marked page hreach]
      exact Or.inl hmarked
  | lock addr =>
      cases hstep
      rw [marked_lock hsize hreach]
      exact Or.inl hmarked
  | locks addr count =>
      cases hstep
      rw [marked_locks hsize hreach]
      exact Or.inl hmarked
  | free addr =>
      cases hstep
      rw [marked_free hsize hreach]
      exact ⟨hmarked, (hkept addr rfl).symm⟩
  | store addr value =>
      cases hstep
      rw [PageAllocator.Marked] at hmarked ⊢
      rw [← hmarked]
      exact bitAt_store8_outside hsize (hprivate addr value rfl) hpage

theorem run_sized (hsized : Sized bitmap s) (hrun : run step s events = some s') :
    Sized bitmap s' :=
  run_invariant (Sized bitmap) hsized (fun _ _ _ _ hcurrent hstep => step_sized hcurrent hstep)
    hrun

theorem run_keeps (hsized : Sized bitmap s) (hrun : run step s events = some s')
    (hprivate : BitmapPrivate bitmap events)
    (hkept : ∀ addr, .free addr ∈ events → pageIndex addr ≠ page)
    (hpage : page < 8 * bitmap.size.toNat) (hmarked : s.Marked page) : s'.Marked page := by
  have hinv := run_invariant (fun s => Sized bitmap s ∧ s.Marked page) ⟨hsized, hmarked⟩
    (fun current event hevent next ⟨hcurrent, hcurrentMarked⟩ hstep =>
      ⟨step_sized hcurrent hstep,
        step_keeps hcurrent hstep
          (fun addr value heq => hprivate addr value (heq ▸ hevent))
          (fun addr heq => hkept addr (heq ▸ hevent)) hpage hcurrentMarked⟩)
    hrun
  exact hinv.2

/-- Between an event that acquires a page and a later `getPage` that returns it
lies a `free` on that page. -/
theorem free_between {before between after : List Event} {acquire : Event} {found : Word64}
    (hsized : Sized bitmap s)
    (hrun : run step s (before ++ acquire :: between ++ .got found :: after) = some s')
    (hprivate : BitmapPrivate bitmap (before ++ acquire :: between ++ .got found :: after))
    (hacquires : Acquires acquire (pageIndex found)) :
    ∃ addr, .free addr ∈ between ∧ pageIndex addr = pageIndex found := by
  rw [List.append_assoc, List.cons_append, run_append, Option.bind_eq_some_iff] at hrun
  obtain ⟨s₁, hbefore, hrun⟩ := hrun
  rw [run_cons, Option.bind_eq_some_iff] at hrun
  obtain ⟨s₂, hacquire, hrun⟩ := hrun
  rw [run_append, Option.bind_eq_some_iff] at hrun
  obtain ⟨s₃, hbetween, hrun⟩ := hrun
  rw [run_cons, Option.bind_eq_some_iff] at hrun
  obtain ⟨s₄, hgot, -⟩ := hrun
  have hsized₁ := run_sized hsized hbefore
  have hsized₂ := step_sized hsized₁ hacquire
  have hsized₃ := run_sized hsized₂ hbetween
  obtain ⟨rfl, hsize, hpos⟩ := hsized₃
  have hgranted := getPage_granted hsize hpos (step_got hgot)
  have hpage : pageIndex found < 8 * s₃.pageBitmap.size.toNat := hgranted.tracked
  by_contra hnone
  push Not at hnone
  apply hgranted.unmarked
  refine run_keeps hsized₂ hbetween ?_ (fun addr haddr => hnone addr haddr) hpage
    (step_acquires hsized₁ hacquire hacquires hpage)
  intro addr value hstore
  exact hprivate addr value (by simp [hstore])

/-- Calls that set bits and never clear one. -/
def Marking : Event → Prop
  | .got _ => True
  | .lock _ => True
  | .locks _ _ => True
  | .free _ => False
  | .store _ _ => False

/-- A page that a run of such calls hands out was tracked and unmarked when the
run began. -/
theorem got_unmarked {found : Word64} (hsized : Sized bitmap s)
    (hrun : run step s events = some s') (hmarking : ∀ event ∈ events, Marking event)
    (hfound : .got found ∈ events) :
    pageIndex found < 8 * bitmap.size.toNat ∧ ¬ s.Marked (pageIndex found) := by
  obtain ⟨before, after, rfl⟩ := List.append_of_mem hfound
  rw [run_append, Option.bind_eq_some_iff] at hrun
  obtain ⟨s₁, hbefore, hrun⟩ := hrun
  rw [run_cons, Option.bind_eq_some_iff] at hrun
  obtain ⟨s₂, hgot, -⟩ := hrun
  have hsized₁ := run_sized hsized hbefore
  obtain ⟨rfl, hsize, hpos⟩ := hsized₁
  have hgranted := getPage_granted hsize hpos (step_got hgot)
  refine ⟨hgranted.tracked, fun hmarked => hgranted.unmarked ?_⟩
  refine run_keeps hsized hbefore (fun addr value hstore => ?_) (fun addr hfree => ?_)
    hgranted.tracked hmarked
  · exact (hmarking _ (List.mem_append_left _ hstore)).elim
  · exact (hmarking _ (List.mem_append_left _ hfree)).elim

theorem got_aligned {before after : List Event} {found : Word64} (hsized : Sized bitmap s)
    (hrun : run step s (before ++ .got found :: after) = some s') : found.toNat % 4096 = 0 := by
  rw [run_append, Option.bind_eq_some_iff] at hrun
  obtain ⟨s₁, hbefore, hrun⟩ := hrun
  rw [run_cons, Option.bind_eq_some_iff] at hrun
  obtain ⟨s₂, hgot, -⟩ := hrun
  obtain ⟨rfl, hsize, hpos⟩ := run_sized hsized hbefore
  exact (getPage_granted hsize hpos (step_got hgot)).aligned

/-- Exclusive ownership.  In every run from a state with a bitmap, a page that
an event acquires is returned by a later `getPage` only after a `free` on it;
two results of `getPage` without such a `free` between them are different
page-aligned addresses. -/
theorem exclusive_ownership (hsized : Sized bitmap s) (hrun : run step s events = some s')
    (hprivate : BitmapPrivate bitmap events) :
    (∀ before acquire between found after,
      events = before ++ acquire :: between ++ .got found :: after →
      Acquires acquire (pageIndex found) →
        ∃ addr, .free addr ∈ between ∧ pageIndex addr = pageIndex found) ∧
    (∀ before first between second after,
      events = before ++ .got first :: between ++ .got second :: after →
      (∀ addr, .free addr ∈ between → pageIndex addr ≠ pageIndex first) →
        first ≠ second ∧ first.toNat % 4096 = 0 ∧ second.toNat % 4096 = 0) := by
  constructor
  · rintro before acquire between found after rfl hacquires
    exact free_between hsized hrun hprivate hacquires
  · rintro before first between second after rfl hheld
    refine ⟨?_, ?_, got_aligned hsized hrun⟩
    · rintro rfl
      obtain ⟨addr, hfree, hpage⟩ := free_between hsized hrun hprivate rfl
      exact hheld addr hfree hpage
    · rw [List.append_assoc, List.cons_append] at hrun
      exact got_aligned hsized hrun

/-- An allocator of eight free pages. -/
def eightPages : PageAllocator := ⟨fun _ => 0, ⟨1, 0x100⟩, 0, 0, 0, true, 0, 0⟩

/-- Page 0 is granted, freed through an unaligned address and granted again, and then page 1:
the free comes between the two grants of page 0, and the two pages held at the end differ. -/
theorem exclusive_ownership_regrant :
    ∃ s', run step eightPages [.got 0, .lock 0x2fff, .free 0x10, .got 0, .got 0x1000] = some s' ∧
      (∃ addr, Event.free addr ∈ [Event.lock 0x2fff, Event.free 0x10] ∧
        pageIndex addr = pageIndex 0) ∧
      (0 : Word64) ≠ 0x1000 ∧ (0 : Word64).toNat % 4096 = 0 ∧
        (0x1000 : Word64).toNat % 4096 = 0 := by
  have hreturns : (run step eightPages
      [.got 0, .lock 0x2fff, .free 0x10, .got 0, .got 0x1000]).isSome = true := by
    decide +kernel
  obtain ⟨s', hrun⟩ := Option.isSome_iff_exists.mp hreturns
  have hsized : Sized ⟨1, 0x100⟩ eightPages := ⟨rfl, by simp [Bitmap.WellSized], by decide⟩
  obtain ⟨hfreed, hdiffer⟩ := exclusive_ownership hsized hrun (by simp [BitmapPrivate])
  exact ⟨s', hrun, hfreed [] (.got 0) [.lock 0x2fff, .free 0x10] 0 [.got 0x1000] rfl rfl,
    hdiffer [.got 0, .lock 0x2fff, .free 0x10] 0 [] 0x1000 [] rfl
      fun _ hnone => absurd hnone List.not_mem_nil⟩

end RedX.PageOwnership
