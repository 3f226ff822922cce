import RedX.Screen.TextGrid

/-!
# Strings on one row

`print` counts the characters of a string in a `uint8_t` and starts a new line if the rest of
the row is shorter than that count.
-/

namespace RedX.PrintRow

open RedX.MachineWord
open RedX.AccessLog
open RedX.TextRenderer
open RedX.TextCursor
open RedX.TextGrid

/-- A character with the column and the row it is drawn in. -/
structure Placed where
  chr : Byte
  column : ℕ
  row : ℕ
  deriving DecidableEq

/-- Draws a character and logs its place. -/
def drawPlaced (renderer : BasicRenderer) (color : Word32) : Draw Placed :=
  fun memory chr cur => access ⟨chr, cur.x.toNat, cur.y.toNat⟩
    (renderer.printCharAt memory chr (cur.x * 8) (cur.y * 16) color)

/-- The characters of a string from a column on. -/
def onRow (row : ℕ) : ℕ → List Byte → List Placed
  | _, [] => []
  | column, chr :: str => ⟨chr, column, row⟩ :: onRow row (column + 1) str

/-- All characters that `print` draws are on a single row, in consecutive columns. -/
def PrintsOnRow (renderer : BasicRenderer) (color : Word32) (str : List Byte) (page : Page) :
    Prop :=
  ∃ row column, (printLogged (drawPlaced renderer color) str page).log = onRow row column str

/-- The string fits in the rest of the row, or `print` sees that it does not. -/
def Noticed (length : ℕ) (cur : Cursor) : Prop :=
  length ≤ cur.xm.toNat - cur.x.toNat + 1 ∨ cur.xm.toNat - cur.x.toNat < length % 256

instance (length : ℕ) (cur : Cursor) : Decidable (Noticed length cur) :=
  inferInstanceAs (Decidable (_ ∨ _))

variable {renderer : BasicRenderer} {color : Word32} {page : Page} {str : List Byte}

theorem drawPlaced_draws (renderer : BasicRenderer) (color : Word32) :
    Draws renderer color (drawPlaced renderer color) := fun _ _ _ => rfl

/-- The log apart, what is analysed here is `print`. -/
theorem printPlaced_result (renderer : BasicRenderer) (color : Word32) (str : List Byte)
    (page : Page) : (printLogged (drawPlaced renderer color) str page).result =
      some (renderer.print color str page) :=
  printLogged_result (drawPlaced_draws renderer color) str page

theorem onRow_getElem? (row column index : ℕ) (str : List Byte) :
    (onRow row column str)[index]? =
      str[index]?.map fun chr => ⟨chr, column + index, row⟩ := by
  induction str generalizing column index with
  | nil => rfl
  | cons chr str ih =>
      cases index with
      | zero => rfl
      | succ index =>
          rw [onRow, List.getElem?_cons_succ, List.getElem?_cons_succ, ih, Nat.add_assoc,
            Nat.add_comm 1]

/-! ## Character by character -/

theorem wrap_of_le {cur : Cursor} (hx : cur.x ≤ cur.xm) : cur.wrap = cur := by
  rw [Cursor.wrap, if_neg]
  exact fun hgt => absurd hx (BitVec.not_le.mpr hgt)

/-- One character of a string. -/
theorem printString_cons_log (renderer : BasicRenderer) (color : Word32)
    (hx : page.1.x ≤ page.1.xm) (chr : Byte) (str : List Byte) :
    ∃ memory, (printStringLogged (drawPlaced renderer color) (chr :: str) page).log =
      ⟨chr, page.1.x.toNat, page.1.y.toNat⟩ ::
        (printStringLogged (drawPlaced renderer color) str (page.1.right, memory)).log := by
  refine ⟨renderer.printCharAt page.2 chr (page.1.x * 8) (page.1.y * 16) color, ?_⟩
  rw [printStringLogged, List.foldlM_cons, wrap_of_le hx]
  have hresult : (printCharLogged (drawPlaced renderer color) (page.1, page.2) chr).result =
      some (page.1.right,
        renderer.printCharAt page.2 chr (page.1.x * 8) (page.1.y * 16) color) := by
    rw [printCharLogged, putLogged_result _ (drawPlaced_draws renderer color), wrap_of_le hx]
  rw [log_bind_of_result hresult, printCharLogged, putLogged, wrap_of_le hx]
  rfl

/-- A string that fits in the rest of the row. -/
theorem printString_onRow (hx : page.1.x ≤ page.1.xm)
    (hfits : page.1.x.toNat + str.length ≤ page.1.xm.toNat + 1) :
    (printStringLogged (drawPlaced renderer color) str page).log =
      onRow page.1.y.toNat page.1.x.toNat str := by
  induction str generalizing page with
  | nil => rfl
  | cons chr str ih =>
      obtain ⟨memory, hlog⟩ := printString_cons_log renderer color hx chr str
      rw [hlog, onRow]
      congr 1
      rw [List.length_cons] at hfits
      cases str with
      | nil => rfl
      | cons second rest =>
          rw [List.length_cons] at hfits
          have hlast : page.1.x ≠ page.1.xm := fun hlast => by
            rw [hlast] at hfits
            omega
          have hnext : (page.1.x + 1).toNat = page.1.x.toNat + 1 := by bv_omega
          rw [right_inRow hlast, ih (succ_le hx hlast), hnext]
          dsimp only
          rw [hnext, List.length_cons]
          omega

/-- Of a longer string the character after the last column is drawn in the first one. -/
theorem printString_splits (hx : page.1.x ≤ page.1.xm)
    (hlong : page.1.xm.toNat - page.1.x.toNat + 1 < str.length) :
    ∃ placed, placed.column = 0 ∧
      (printStringLogged (drawPlaced renderer color) str page).log[
        page.1.xm.toNat - page.1.x.toNat + 1]? = some placed := by
  induction str generalizing page with
  | nil => cases hlong
  | cons chr str ih =>
      obtain ⟨memory, hlog⟩ := printString_cons_log renderer color hx chr str
      rw [hlog, List.getElem?_cons_succ]
      rw [List.length_cons] at hlong
      by_cases hlast : page.1.x = page.1.xm
      · cases str with
        | nil => exact absurd hlong (Nat.not_lt.mpr (Nat.le_add_left _ _))
        | cons second rest =>
            have hzero : page.1.right.x = 0 := by
              rw [Cursor.right, if_neg (not_not_intro hlast)]
            obtain ⟨memory', hlog'⟩ := printString_cons_log renderer color
              (show (page.1.right, memory).1.x ≤ _ from hzero ▸ zero_le _) second rest
            refine ⟨⟨second, page.1.right.x.toNat, page.1.right.y.toNat⟩, by rw [hzero]; rfl, ?_⟩
            rw [hlog', hlast, Nat.sub_self]
            rfl
      · let next : Page := ({ page.1 with x := page.1.x + 1 }, memory)
        have hnext : next.1.xm.toNat - next.1.x.toNat + 1 = page.1.xm.toNat - page.1.x.toNat := by
          change page.1.xm.toNat - (page.1.x + 1).toNat + 1 = _
          bv_omega
        have hsucc : next.1.x ≤ next.1.xm := succ_le hx hlast
        rw [right_inRow hlast, ← hnext]
        refine ih hsucc ?_
        rw [hnext]
        omega

/-! ## The whole string -/

theorem remaining_lt_iff {cur : Cursor} (hx : cur.x ≤ cur.xm) (length : ℕ) :
    cur.xm - cur.x < (BitVec.ofNat 8 length : Byte).setWidth 32 ↔
      cur.xm.toNat - cur.x.toNat < length % 256 := by
  rw [BitVec.lt_def, BitVec.toNat_sub_of_le hx, BitVec.toNat_setWidth, BitVec.toNat_ofNat]
  omega

theorem newLine_x {cur : Cursor} (hy : cur.y ≤ cur.ym) : cur.newLine.x = 0 := by
  rw [Cursor.newLine, if_pos hy, Cursor.down]
  split_ifs <;> rfl

/-- For every cursor on the grid, a string that is not longer than a row is printed on a single
row exactly if it fits in the rest of this one or its length modulo 256 does not. -/
theorem printsOnRow_iff (hgrid : OnGrid page.1) (hlength : str.length ≤ page.1.xm.toNat + 1) :
    PrintsOnRow renderer color str page ↔ Noticed str.length page.1 := by
  have hx := BitVec.le_def.mp hgrid.x
  rw [PrintsOnRow, printLogged, Noticed, ← remaining_lt_iff hgrid.x]
  split_ifs with hnewLine
  · have hcolumn := newLine_x hgrid.y
    have hlimit := (stays_newLine page.1).xm
    refine iff_of_true ⟨_, _, printString_onRow ?_ ?_⟩ (.inr hnewLine)
    · exact hcolumn ▸ zero_le _
    · dsimp only
      rw [hcolumn, hlimit]
      exact (Nat.zero_add _).trans_le hlength
  · rw [or_iff_left hnewLine]
    by_cases hfits : str.length ≤ page.1.xm.toNat - page.1.x.toNat + 1
    · refine iff_of_true ⟨_, _, printString_onRow hgrid.x ?_⟩ hfits
      dsimp only
      omega
    · refine iff_of_false ?_ hfits
      rintro ⟨row, column, hrow⟩
      obtain ⟨placed, hzero, hplaced⟩ :=
        printString_splits (show (page.1, page.2).1.x ≤ _ from hgrid.x) (not_le.mp hfits)
      rw [hrow, onRow_getElem?, Option.map_eq_some_iff] at hplaced
      obtain ⟨chr, -, rfl⟩ := hplaced
      exact absurd hzero (Nat.succ_ne_zero _)

/-- A string that does not fit in the rest of a row of 80 columns. -/
theorem printsOnRow_newLine : PrintsOnRow ⟨⟨0x80000000, 0x100000, 640, 400, 640⟩, ⟨16, 0x90000000⟩⟩
    0xFFFFFFFF (literal "RedX") (⟨78, 3, 79, 24⟩, fun _ => 0) :=
  (printsOnRow_iff ⟨by decide, by decide⟩ (by decide)).mpr (by decide)

/-- On a row of 320 columns 256 characters have the length 0 for `print`: from column 100 on
the last 36 of them come to the next row. -/
theorem print_splits_long :
    let renderer : BasicRenderer := ⟨⟨0x80000000, 0xE10000, 2560, 1440, 2560⟩, ⟨16, 0x90000000⟩⟩
    let str := List.replicate 256 (0x41 : Byte)
    let page : Page := (⟨100, 0, 319, 89⟩, fun _ => 0)
    let log := (printLogged (drawPlaced renderer 0xFFFFFFFF) str page).log
    (OnGrid page.1 ∧ str.length ≤ page.1.xm.toNat + 1) ∧
      (log[219]? = some ⟨0x41, 319, 0⟩ ∧ log[220]? = some ⟨0x41, 0, 1⟩) ∧
      ¬ PrintsOnRow renderer 0xFFFFFFFF str page := by
  intro renderer str page log
  have hlast : log[219]? = some ⟨0x41, 319, 0⟩ := by decide +kernel
  have hnext : log[220]? = some ⟨0x41, 0, 1⟩ := by decide +kernel
  have hlength : str.length ≤ page.1.xm.toNat + 1 := List.length_replicate.trans_le (by decide)
  refine ⟨⟨⟨by decide, by decide⟩, hlength⟩, ⟨hlast, hnext⟩, ?_⟩
  rintro ⟨row, column, hrow⟩
  change log = _ at hrow
  rw [hrow, onRow_getElem?, Option.map_eq_some_iff] at hnext
  obtain ⟨chr, -, hplaced⟩ := hnext
  exact absurd (congrArg Placed.column hplaced) (Nat.succ_ne_zero _)

end RedX.PrintRow
