import Mathlib.Data.List.GetD
import Mathlib.Tactic.Common

/-!
# Text in rows

A text without positions of its own is laid out in rows of `width` characters.  A newline
fills the row up with `blank`s and stands in its last cell, so that the text goes on in the
next row; in a full row it takes the place of the last character.
-/

namespace RedX.RowText

variable {α : Type*} {width length count : ℕ} {blank newline chr : α} {text : List α}

/-- The cells that are left of a row that has begun. -/
def pad (width length : ℕ) : ℕ := (width - length % width) % width

def padded (width : ℕ) (blank : α) (text : List α) : List α :=
  text ++ List.replicate (pad width text.length) blank

def endRow (width : ℕ) (blank newline : α) (text : List α) : List α :=
  (padded width blank text).set ((padded width blank text).length - 1) newline

/-- A character is added to the text. -/
def feed [DecidableEq α] (width : ℕ) (blank newline : α) (text : List α) (chr : α) : List α :=
  if chr = newline then endRow width blank newline text else text ++ [chr]

/-- The text that characters spell. -/
def spell [DecidableEq α] (width : ℕ) (blank newline : α) (chars : List α) : List α :=
  chars.foldl (feed width blank newline) []

theorem spell_append [DecidableEq α] (width : ℕ) (blank newline : α) (chars : List α) (chr : α) :
    spell width blank newline (chars ++ [chr]) =
      feed width blank newline (spell width blank newline chars) chr := by
  rw [spell, List.foldl_append]
  rfl

theorem dvd_add_pad (hwidth : 0 < width) (length : ℕ) : width ∣ length + pad width length := by
  have hlt := Nat.mod_lt length hwidth
  have hsplit := Nat.div_add_mod length width
  rcases Nat.eq_zero_or_pos (length % width) with hzero | hpos
  · rw [pad, hzero, Nat.sub_zero, Nat.mod_self]
    exact Nat.dvd_of_mod_eq_zero hzero
  · rw [pad, Nat.mod_eq_of_lt (by omega)]
    refine ⟨length / width + 1, ?_⟩
    rw [Nat.mul_succ]
    omega

/-- The row ends nowhere before. -/
theorem eq_pad (hwidth : 0 < width) (hcount : count ≤ pad width length)
    (hdvd : width ∣ length + count) : count = pad width length := by
  have hlt : pad width length < width := Nat.mod_lt _ hwidth
  have hrest : width ∣ pad width length - count := by
    rw [show pad width length - count = length + pad width length - (length + count) by omega]
    exact Nat.dvd_sub (dvd_add_pad hwidth length) hdvd
  have hnone := Nat.eq_zero_of_dvd_of_lt hrest (by omega)
  omega

theorem pad_eq_zero (hwidth : 0 < width) (hdvd : width ∣ length) : pad width length = 0 :=
  (eq_pad hwidth (Nat.zero_le _) hdvd).symm

theorem length_padded (width : ℕ) (blank : α) (text : List α) :
    (padded width blank text).length = text.length + pad width text.length := by
  rw [padded, List.length_append, List.length_replicate]

theorem length_endRow (width : ℕ) (blank newline : α) (text : List α) :
    (endRow width blank newline text).length = text.length + pad width text.length := by
  rw [endRow, List.length_set, length_padded]

/-- Newlines stand at the ends of rows. -/
def RowEnds (width : ℕ) (newline : α) (text : List α) : Prop :=
  ∀ position, text[position]? = some newline → width ∣ position + 1

theorem rowEnds_nil (width : ℕ) (newline : α) : RowEnds width newline [] :=
  fun _ hnone => absurd hnone (by simp)

theorem rowEnds_endRow (hwidth : 0 < width) (hblank : blank ≠ newline)
    (hends : RowEnds width newline text) :
    RowEnds width newline (endRow width blank newline text) := by
  intro position hposition
  rw [endRow, List.getElem?_set] at hposition
  split_ifs at hposition with hlast hinside
  · rw [← hlast, Nat.sub_add_cancel (by omega), length_padded]
    exact dvd_add_pad hwidth text.length
  · rw [padded, List.getElem?_append] at hposition
    split_ifs at hposition with hold
    · exact hends position hposition
    · rw [List.getElem?_replicate] at hposition
      split_ifs at hposition
      exact absurd (Option.some.inj hposition) hblank

theorem rowEnds_feed [DecidableEq α] (chr : α) (hwidth : 0 < width) (hblank : blank ≠ newline)
    (hends : RowEnds width newline text) :
    RowEnds width newline (feed width blank newline text chr) := by
  rw [feed]
  split_ifs with hnew
  · exact rowEnds_endRow hwidth hblank hends
  · intro position hposition
    rw [List.getElem?_append] at hposition
    split_ifs at hposition with hold
    · exact hends position hposition
    · rw [List.getElem?_singleton] at hposition
      split_ifs at hposition
      exact absurd (Option.some.inj hposition) hnew

theorem mem_endRow (hmem : chr ∈ endRow width blank newline text) :
    chr ∈ text ∨ chr = blank ∨ chr = newline := by
  rcases List.mem_or_eq_of_mem_set hmem with hpadded | hnew
  · rcases List.mem_append.mp hpadded with htext | hpad
    · exact Or.inl htext
    · exact Or.inr (Or.inl (List.eq_of_mem_replicate hpad))
  · exact Or.inr (Or.inr hnew)

/-! ## Cells -/

theorem getD_set (text : List α) (place position : ℕ) (chr fallback : α) :
    (text.set place chr).getD position fallback =
      if position = place ∧ place < text.length then chr else text.getD position fallback := by
  rw [List.getD_eq_getElem?_getD, List.getElem?_set, List.getD_eq_getElem?_getD]
  by_cases hplace : place = position
  · subst hplace
    by_cases hinside : place < text.length
    · simp [hinside]
    · simp [hinside]
  · simp [hplace, Ne.symm hplace]

theorem getD_append_replicate_succ (text : List α) (count position : ℕ) (blank fallback : α) :
    (text ++ List.replicate (count + 1) blank).getD position fallback =
      if position = text.length + count then blank
      else (text ++ List.replicate count blank).getD position fallback := by
  rw [List.replicate_succ', ← List.append_assoc, List.getD_eq_getElem?_getD,
    List.getElem?_append, List.getD_eq_getElem?_getD]
  simp only [List.length_append, List.length_replicate]
  split_ifs with hinside hlast hlast
  · omega
  · rfl
  · rw [hlast, Nat.sub_self]
    rfl
  · rw [List.getElem?_singleton, if_neg (by omega), List.getElem?_eq_none]
    rw [List.length_append, List.length_replicate]
    omega

end RedX.RowText
