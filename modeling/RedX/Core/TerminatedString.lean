import Mathlib.Data.Int.Basic
import Mathlib.Data.List.GetD
import Mathlib.Logic.Function.Basic
import Mathlib.Order.Nat
import Mathlib.Tactic.Common

/-!
# Terminated strings

An array holds a string when it has its characters one after the other and then the
terminator, which is none of them.  What lies behind does not matter, so the array holds
exactly one string if any.  `Fills` is for a string that is put in from its end on.
-/

namespace RedX.TerminatedString

variable {α : Type*} {nul chr : α} {cells cells' : ℕ → α} {str str' : List α}

structure IsString (nul : α) (cells : ℕ → α) (str : List α) : Prop where
  cell : ∀ position ≤ str.length, cells position = str.getD position nul
  proper : ∀ chr ∈ str, chr ≠ nul

theorem IsString.ends (hstr : IsString nul cells str) : cells str.length = nul := by
  rw [hstr.cell _ le_rfl, List.getD_eq_default _ _ le_rfl]

theorem IsString.cell_ne (hstr : IsString nul cells str) {position : ℕ}
    (hposition : position < str.length) : cells position ≠ nul := by
  rw [hstr.cell _ hposition.le, List.getD_eq_getElem _ _ hposition]
  exact hstr.proper _ (List.getElem_mem hposition)

theorem IsString.length_le (hstr : IsString nul cells str) (hstr' : IsString nul cells str') :
    str.length ≤ str'.length := by
  by_contra hlong
  exact hstr.cell_ne (not_le.mp hlong) hstr'.ends

/-- An array holds at most one string. -/
theorem IsString.unique (hstr : IsString nul cells str) (hstr' : IsString nul cells str') :
    str = str' := by
  have hlength := le_antisymm (hstr.length_le hstr') (hstr'.length_le hstr)
  refine List.ext_getElem hlength fun position hposition hposition' => ?_
  rw [← List.getD_eq_getElem _ nul hposition, ← List.getD_eq_getElem _ nul hposition',
    ← hstr.cell _ hposition.le, ← hstr'.cell _ hposition'.le]

/-- Only the cells up to the terminator matter. -/
theorem IsString.congr (hstr : IsString nul cells str)
    (hcells : ∀ position ≤ str.length, cells' position = cells position) :
    IsString nul cells' str :=
  ⟨fun position hposition => (hcells position hposition).trans (hstr.cell position hposition),
    hstr.proper⟩

theorem isString_cons (hchr : cells 0 = chr) (hproper : chr ≠ nul)
    (hstr : IsString nul (fun position => cells (position + 1)) str) :
    IsString nul cells (chr :: str) where
  cell position hposition := by
    cases position with
    | zero => exact hchr
    | succ position => exact hstr.cell position (Nat.le_of_succ_le_succ hposition)
  proper other hother := by
    rcases List.mem_cons.mp hother with rfl | hrest
    · exact hproper
    · exact hstr.proper other hrest

/-! ## Filling an array -/

/-- The cells from `first` on now hold `str`, and the others what they held. -/
structure Fills (before after : ℤ → α) (first : ℤ) (str : List α) : Prop where
  inside : ∀ position < str.length, some (after (first + position)) = str[position]?
  outside : ∀ index, index < first ∨ first + str.length ≤ index → after index = before index

variable {before after : ℤ → α} {first : ℤ} {last : α}

theorem Fills.nil (before : ℤ → α) (first : ℤ) : Fills before before first [] :=
  ⟨fun _ hnone => absurd hnone (Nat.not_lt_zero _), fun _ _ => rfl⟩

/-- A string that is filled in from its last character on. -/
theorem Fills.snoc
    (hrest : Fills (Function.update before (first + str.length) last) after first str) :
    Fills before after first (str ++ [last]) where
  inside position hposition := by
    rw [List.length_append, List.length_singleton] at hposition
    by_cases hearlier : position < str.length
    · rw [List.getElem?_append_left hearlier]
      exact hrest.inside position hearlier
    · obtain rfl : position = str.length := by omega
      rw [hrest.outside _ (.inr (Int.le_refl _)), Function.update_self, List.getElem?_concat_length]
  outside index hindex := by
    rw [List.length_append, List.length_singleton] at hindex
    rw [hrest.outside index (by omega), Function.update_of_ne (by omega)]

/-- A filled string becomes one with the terminator behind it. -/
theorem Fills.isString (hfills : Fills before after first str) (hproper : ∀ chr ∈ str, chr ≠ nul) :
    IsString nul (fun position : ℕ =>
      Function.update after (first + str.length) nul (first + position)) str where
  cell position hposition := by
    rcases hposition.lt_or_eq with hinside | rfl
    · rw [Function.update_of_ne (by omega), ← Option.some.injEq, hfills.inside position hinside,
        List.getD_eq_getElem _ _ hinside, List.getElem?_eq_getElem hinside]
    · rw [Function.update_self, List.getD_eq_default _ _ le_rfl]
  proper := hproper

end RedX.TerminatedString
