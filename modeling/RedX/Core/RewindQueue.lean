import Mathlib.Data.List.GetD
import Mathlib.Logic.Function.Basic
import Mathlib.Order.Nat
import Mathlib.Tactic.Common

/-!
# A queue in an array with a rewinding reader

A cell that holds `blank` is free.  A value goes into the first free cell.  The
reader takes the value at its index, frees the cell and steps on; at a free cell
it goes back to the start.  `Stored` describes the array by two lists: `ahead`,
the values from the index on, and `behind`, those in the cells that the reader
has freed.  The queue is `ahead ++ behind`, which `put` extends at its end as
long as a cell behind the reader is free.
-/

namespace RedX.RewindQueue

variable {α : Type*} {blank value : α} {cells : ℕ → α} {size index free : ℕ}
  {ahead behind : List α}

structure Stored (blank : α) (cells : ℕ → α) (size index : ℕ) (ahead behind : List α) :
    Prop where
  cell_behind : ∀ position < index, cells position = behind.getD position blank
  cell_ahead : ∀ position, index + position < size →
    cells (index + position) = ahead.getD position blank
  nonblank : ∀ held ∈ ahead ++ behind, held ≠ blank
  behind_le : behind.length ≤ index
  ahead_lt : index + ahead.length < size

theorem stored_nil (hsize : 0 < size) (hblank : ∀ position < size, cells position = blank) :
    Stored blank cells size 0 [] [] where
  cell_behind _ hposition := absurd hposition (Nat.not_lt_zero _)
  cell_ahead position hposition := by
    rw [hblank _ hposition]
    rfl
  nonblank _ hheld := absurd hheld List.not_mem_nil
  behind_le := le_rfl
  ahead_lt := hsize

theorem getD_ne_blank {held : List α} (hnonblank : ∀ value ∈ held, value ≠ blank)
    {position : ℕ} (hposition : position < held.length) : held.getD position blank ≠ blank := by
  rw [List.getD_eq_getElem _ _ hposition]
  exact hnonblank _ (List.getElem_mem hposition)

theorem getD_concat (held : List α) (position : ℕ) :
    (held ++ [value]).getD position blank =
      if position = held.length then value else held.getD position blank := by
  split_ifs with hlast
  · rw [hlast, List.getD_append_right _ _ _ _ le_rfl, Nat.sub_self]
    rfl
  · rcases Nat.lt_or_gt_of_ne hlast with hbefore | hafter
    · exact List.getD_append _ _ _ _ hbefore
    · rw [List.getD_eq_default _ _ hafter.le, List.getD_eq_default]
      rw [List.length_append, List.length_singleton]
      omega

namespace Stored

/-- At a free cell the values ahead have run out and the reader goes back. -/
theorem rewind (hstored : Stored blank cells size index ahead behind)
    (hfree : cells index = blank) : ahead = [] ∧ Stored blank cells size 0 behind [] := by
  have hlt := hstored.ahead_lt
  have hle := hstored.behind_le
  have hahead : ahead = [] := by
    by_contra hsome
    have hpos := List.length_pos_iff.mpr hsome
    have hcell := hstored.cell_ahead 0 (by omega)
    exact getD_ne_blank (fun held hheld => hstored.nonblank held (List.mem_append_left _ hheld))
      hpos (hcell.symm.trans hfree)
  subst hahead
  refine ⟨rfl, fun _ hposition => absurd hposition (Nat.not_lt_zero _), ?_, ?_, le_rfl, ?_⟩
  · intro position hposition
    rw [Nat.zero_add] at hposition ⊢
    by_cases hbefore : position < index
    · exact hstored.cell_behind position hbefore
    · obtain ⟨further, rfl⟩ := Nat.exists_eq_add_of_le (Nat.le_of_not_lt hbefore)
      rw [hstored.cell_ahead further hposition, List.getD_eq_default behind _ (by omega)]
      rfl
  · simpa using hstored.nonblank
  · rw [List.length_nil] at hlt
    omega

/-- At a held cell the reader takes the first value ahead. -/
theorem advance (hstored : Stored blank cells size index ahead behind)
    (hheld : cells index ≠ blank) : ∃ rest, ahead = cells index :: rest ∧
      Stored blank (Function.update cells index blank) size (index + 1) rest behind := by
  have hlt := hstored.ahead_lt
  have hle := hstored.behind_le
  have hcell := hstored.cell_ahead 0 (by omega)
  cases ahead with
  | nil => exact absurd hcell hheld
  | cons first rest =>
      rw [List.length_cons] at hlt
      refine ⟨rest, by rw [show cells index = first from hcell], ?_, ?_, ?_, by omega, by omega⟩
      · intro position hposition
        by_cases hlast : position = index
        · rw [hlast, Function.update_self, List.getD_eq_default _ _ hle]
        · rw [Function.update_of_ne hlast]
          exact hstored.cell_behind position (by omega)
      · intro position hposition
        rw [Function.update_of_ne (by omega), Nat.add_assoc,
          hstored.cell_ahead (1 + position) (by omega), Nat.add_comm, List.getD_cons_succ]
      · intro held hmem
        exact hstored.nonblank held (List.mem_cons_of_mem _ hmem)

/-- A free cell lies below `size`. -/
theorem exists_free (hstored : Stored blank cells size index ahead behind) :
    ∃ position < size, cells position = blank := by
  refine ⟨index + ahead.length, hstored.ahead_lt, ?_⟩
  rw [hstored.cell_ahead _ hstored.ahead_lt, List.getD_eq_default _ _ le_rfl]

/-- Where no value is held the queue is empty. -/
theorem eq_nil (hstored : Stored blank cells size index ahead behind)
    (hblank : ∀ position < size, cells position = blank) : ahead ++ behind = [] := by
  have hlt := hstored.ahead_lt
  have hle := hstored.behind_le
  have hnonblank := hstored.nonblank
  cases ahead with
  | cons first rest =>
      have hcell := hstored.cell_ahead 0 (by omega)
      rw [hblank _ (by omega)] at hcell
      exact absurd hcell.symm (hnonblank first List.mem_cons_self)
  | nil =>
      cases behind with
      | nil => rfl
      | cons first rest =>
          rw [List.length_cons] at hle
          rw [List.length_nil] at hlt
          have hcell := hstored.cell_behind 0 (by omega)
          rw [hblank _ (by omega)] at hcell
          exact absurd hcell.symm (hnonblank first List.mem_cons_self)

/-- A value put into a free cell behind the reader. -/
theorem put_behind (hstored : Stored blank cells size index ahead behind)
    (hvalue : value ≠ blank) (hgap : behind.length < index) :
    Stored blank (Function.update cells behind.length value) size index ahead
      (behind ++ [value]) where
  cell_behind position hposition := by
    rw [Function.update_apply, getD_concat, hstored.cell_behind position hposition]
  cell_ahead position hposition := by
    rw [Function.update_of_ne (by omega)]
    exact hstored.cell_ahead position hposition
  nonblank held hheld := by
    rw [← List.append_assoc] at hheld
    rcases List.mem_append.mp hheld with hold | hnew
    · exact hstored.nonblank held hold
    · rwa [List.mem_singleton.mp hnew]
  behind_le := by
    rw [List.length_append, List.length_singleton]
    omega
  ahead_lt := hstored.ahead_lt

/-- A value put into the free cell after the values ahead. -/
theorem put_ahead (hstored : Stored blank cells size index ahead behind)
    (hvalue : value ≠ blank) (hroom : index + ahead.length + 1 < size) :
    Stored blank (Function.update cells (index + ahead.length) value) size index
      (ahead ++ [value]) behind where
  cell_behind position hposition := by
    rw [Function.update_of_ne (by omega)]
    exact hstored.cell_behind position hposition
  cell_ahead position hposition := by
    rw [Function.update_apply, getD_concat, hstored.cell_ahead position hposition]
    exact if_congr Nat.add_left_cancel_iff rfl rfl
  nonblank held hheld := by
    rw [List.append_assoc] at hheld
    rcases List.mem_append.mp hheld with hahead | hrest
    · exact hstored.nonblank held (List.mem_append_left _ hahead)
    · rcases List.mem_append.mp hrest with hnew | hbehind
      · rwa [List.mem_singleton.mp hnew]
      · exact hstored.nonblank held (List.mem_append_right _ hbehind)
  behind_le := hstored.behind_le
  ahead_lt := by
    rw [List.length_append, List.length_singleton]
    omega

/-- With a free cell behind the reader the first one is the end of `behind`. -/
theorem first_free_behind (hstored : Stored blank cells size index ahead behind)
    (hfree : cells free = blank) (hfirst : ∀ position < free, cells position ≠ blank)
    (hgap : ∃ position < index, cells position = blank) :
    behind.length < index ∧ free = behind.length := by
  obtain ⟨gap, hgap, hblank⟩ := hgap
  have hbehind : ∀ held ∈ behind, held ≠ blank :=
    fun held hheld => hstored.nonblank held (List.mem_append_right _ hheld)
  have hshort : behind.length ≤ gap := by
    by_contra hheld
    exact getD_ne_blank hbehind (by omega) ((hstored.cell_behind gap hgap).symm.trans hblank)
  refine ⟨by omega, le_antisymm ?_ ?_⟩
  · by_contra hpast
    apply hfirst behind.length (by omega)
    rw [hstored.cell_behind _ (by omega), List.getD_eq_default _ _ le_rfl]
  · by_contra hbefore
    exact getD_ne_blank hbehind (by omega)
      ((hstored.cell_behind free (by omega)).symm.trans hfree)

/-- Without one it is the cell after the values ahead. -/
theorem first_free_ahead (hstored : Stored blank cells size index ahead behind)
    (hfree : cells free = blank) (hfirst : ∀ position < free, cells position ≠ blank)
    (hfull : ∀ position < index, cells position ≠ blank) :
    behind.length = index ∧ free = index + ahead.length := by
  have hlt := hstored.ahead_lt
  have hle := hstored.behind_le
  have hlength : behind.length = index := by
    by_contra hshort
    apply hfull behind.length (by omega)
    rw [hstored.cell_behind _ (by omega), List.getD_eq_default _ _ le_rfl]
  refine ⟨hlength, le_antisymm ?_ ?_⟩
  · by_contra hpast
    apply hfirst (index + ahead.length) (by omega)
    rw [hstored.cell_ahead _ hlt, List.getD_eq_default _ _ le_rfl]
  · by_contra hbefore
    by_cases hreached : free < index
    · exact hfull free hreached hfree
    · obtain ⟨further, rfl⟩ := Nat.exists_eq_add_of_le (Nat.le_of_not_lt hreached)
      exact getD_ne_blank (fun held hheld => hstored.nonblank held (List.mem_append_left _ hheld))
        (by omega) ((hstored.cell_ahead further (by omega)).symm.trans hfree)

/-- The first free cell, if one is behind the reader or the reader is at the start, is
the end of the queue. -/
theorem put (hstored : Stored blank cells size index ahead behind) (hvalue : value ≠ blank)
    (hfree : cells free = blank) (hfirst : ∀ position < free, cells position ≠ blank)
    (hroom : ahead.length + behind.length + 1 < size)
    (hgap : index = 0 ∨ ∃ position < index, cells position = blank) :
    ∃ ahead' behind', ahead' ++ behind' = ahead ++ behind ++ [value] ∧
      Stored blank (Function.update cells free value) size index ahead' behind' := by
  rcases hgap with rfl | hgap
  · obtain ⟨hlength, rfl⟩ := hstored.first_free_ahead hfree hfirst
      fun _ hposition => absurd hposition (Nat.not_lt_zero _)
    obtain rfl := List.length_eq_zero_iff.mp hlength
    exact ⟨ahead ++ [value], [], by simp, hstored.put_ahead hvalue (by omega)⟩
  · obtain ⟨hlength, rfl⟩ := hstored.first_free_behind hfree hfirst hgap
    exact ⟨ahead, behind ++ [value], by simp, hstored.put_behind hvalue hlength⟩

/-- Otherwise the value overtakes the values behind. -/
theorem put_overtakes (hstored : Stored blank cells size index ahead behind)
    (hvalue : value ≠ blank) (hfree : cells free = blank)
    (hfirst : ∀ position < free, cells position ≠ blank)
    (hroom : index + ahead.length + 1 < size)
    (hfull : ∀ position < index, cells position ≠ blank) :
    behind.length = index ∧
      Stored blank (Function.update cells free value) size index (ahead ++ [value]) behind := by
  obtain ⟨hlength, rfl⟩ := hstored.first_free_ahead hfree hfirst hfull
  exact ⟨hlength, hstored.put_ahead hvalue hroom⟩

/-- Wherever it lands, the queue gains the value and loses none. -/
theorem put_perm (hstored : Stored blank cells size index ahead behind) (hvalue : value ≠ blank)
    (hfree : cells free = blank) (hfirst : ∀ position < free, cells position ≠ blank)
    (hroom : ahead.length + behind.length + 1 < size) :
    ∃ ahead' behind', (ahead' ++ behind').Perm (ahead ++ behind ++ [value]) ∧
      Stored blank (Function.update cells free value) size index ahead' behind' := by
  by_cases hgap : ∃ position < index, cells position = blank
  · obtain ⟨ahead', behind', happend, hput⟩ :=
      hstored.put hvalue hfree hfirst hroom (.inr hgap)
    exact ⟨ahead', behind', happend ▸ .refl _, hput⟩
  · have hfull : ∀ position < index, cells position ≠ blank :=
      fun position hposition hblank => hgap ⟨position, hposition, hblank⟩
    obtain ⟨hlength, -⟩ := hstored.first_free_ahead hfree hfirst hfull
    obtain ⟨-, hput⟩ := hstored.put_overtakes hvalue hfree hfirst (by omega) hfull
    refine ⟨ahead ++ [value], behind, ?_, hput⟩
    rw [List.append_assoc, List.append_assoc]
    exact List.perm_append_comm.append_left ahead

end Stored

/-! ## The values in the array -/

/-- The values held, from the first cell on. -/
def held [DecidableEq α] (blank : α) (cells : ℕ → α) (size : ℕ) : List α :=
  ((List.range size).map cells).filter (· ≠ blank)

theorem map_getD_range (values : List α) {count : ℕ} (hcount : values.length ≤ count) :
    (List.range count).map (fun position => values.getD position blank) =
      values ++ List.replicate (count - values.length) blank := by
  refine List.ext_getElem (by simp; omega) fun position hposition _ => ?_
  rw [List.getElem_map, List.getElem_range, List.getElem_append]
  split_ifs with hinside
  · exact List.getD_eq_getElem _ _ hinside
  · rw [List.getElem_replicate, List.getD_eq_default _ _ (not_lt.mp hinside)]

theorem filter_getD_range [DecidableEq α] {values : List α}
    (hnonblank : ∀ value ∈ values, value ≠ blank)
    {count : ℕ} (hcount : values.length ≤ count) :
    ((List.range count).map fun position => values.getD position blank).filter (· ≠ blank) =
      values := by
  rw [map_getD_range values hcount, List.filter_append, List.filter_replicate, if_neg (by simp),
    List.append_nil, List.filter_eq_self]
  exact fun value hvalue => decide_eq_true (hnonblank value hvalue)

/-- They are those of the queue, the ones behind the reader first. -/
theorem Stored.held_eq [DecidableEq α] (hstored : Stored blank cells size index ahead behind) :
    held blank cells size = behind ++ ahead := by
  have hlt := hstored.ahead_lt
  obtain ⟨rest, rfl⟩ := Nat.exists_eq_add_of_le (show index ≤ size by omega)
  have hbehind : (List.range index).map cells =
      (List.range index).map fun position => behind.getD position blank :=
    List.map_congr_left fun position hposition =>
      hstored.cell_behind position (List.mem_range.mp hposition)
  have hahead : (List.range rest).map (fun position => cells (index + position)) =
      (List.range rest).map fun position => ahead.getD position blank :=
    List.map_congr_left fun position hposition =>
      hstored.cell_ahead position (Nat.add_lt_add_left (List.mem_range.mp hposition) index)
  rw [held, List.range_add, List.map_append, List.map_map,
    show (cells ∘ fun position => index + position) = fun position => cells (index + position)
      from rfl,
    hbehind, hahead, List.filter_append,
    filter_getD_range (fun value hvalue => hstored.nonblank value
      (List.mem_append_right _ hvalue)) hstored.behind_le,
    filter_getD_range (fun value hvalue => hstored.nonblank value
      (List.mem_append_left _ hvalue)) (by omega)]

/-! ## How long a value waits -/

/-- The steps that the reader takes at most before it is at the cell `position`: to the cell
itself, or to the end of the array and from its start. -/
def wait (size index position : ℕ) : ℕ :=
  if index ≤ position then position - index else size - index + position + 1

theorem wait_le {position : ℕ} (hposition : position < size) :
    wait size index position ≤ size := by
  unfold wait
  split_ifs <;> omega

/-- A value that the reader is not at is still there after its step, and one step nearer. -/
theorem Stored.wait_advance (hstored : Stored blank cells size index ahead behind)
    {position : ℕ} (hother : index ≠ position) :
    wait size (index + 1) position + 1 ≤ wait size index position := by
  have hlt := hstored.ahead_lt
  unfold wait
  split_ifs <;> omega

/-- The reader does not go back while a value is ahead. -/
theorem Stored.wait_rewind (hstored : Stored blank cells size index ahead behind)
    (hfree : cells index = blank) {position : ℕ} (hposition : position < size)
    (hheld : cells position ≠ blank) : wait size 0 position + 1 ≤ wait size index position := by
  obtain ⟨rfl, -⟩ := hstored.rewind hfree
  have hbefore : position < index := by
    by_contra hahead
    obtain ⟨further, rfl⟩ := Nat.exists_eq_add_of_le (not_lt.mp hahead)
    exact hheld (hstored.cell_ahead further hposition)
  unfold wait
  split_ifs <;> omega

end RedX.RewindQueue
