import RedX.Screen.TextRenderer

/-!
# `struct cursor`

The operations of the cursor that text output alone does not use, the grid they keep the
cursor on, and how the steps forward and back undo each other.
-/

namespace RedX.TextCursor

open RedX.MachineWord
open RedX.TextRenderer

def Cursor.reset (cur : Cursor) : Cursor := { cur with x := 0, y := 0 }

def Cursor.up (cur : Cursor) : Cursor := if cur.y ≠ 0 then { cur with y := cur.y - 1 } else cur

def Cursor.left (cur : Cursor) : Cursor :=
  if cur.x ≠ 0 then { cur with x := cur.x - 1 } else { Cursor.up cur with x := cur.xm }

def Cursor.back (cur : Cursor) : Cursor :=
  if cur.x ≠ 0 then Cursor.left cur
  else if cur.y ≠ 0 then Cursor.up cur
  else cur

/-- The cursor is on the grid of `xm + 1` columns and `ym + 1` rows. -/
structure OnGrid (cur : Cursor) : Prop where
  x : cur.x ≤ cur.xm
  y : cur.y ≤ cur.ym

instance (cur : Cursor) : Decidable (OnGrid cur) :=
  decidable_of_iff (cur.x ≤ cur.xm ∧ cur.y ≤ cur.ym) ⟨fun h => ⟨h.1, h.2⟩, fun h => ⟨h.x, h.y⟩⟩

variable {cur : Cursor}

/-! ## Single steps -/

/-- A step from a place below the limit does not wrap. -/
theorem succ_ne_zero {place limit : Word32} (hle : place ≤ limit) (hne : place ≠ limit) :
    place + 1 ≠ 0 := by
  bv_omega

theorem right_inRow (hx : cur.x ≠ cur.xm) : cur.right = { cur with x := cur.x + 1 } := if_pos hx

theorem right_rowEnd (hx : cur.x = cur.xm) (hy : cur.y ≠ cur.ym) :
    cur.right = { cur with x := 0, y := cur.y + 1 } := by
  rw [Cursor.right, if_neg (not_not_intro hx), Cursor.down, if_pos hy]

theorem left_inRow (hx : cur.x ≠ 0) : Cursor.left cur = { cur with x := cur.x - 1 } := if_pos hx

theorem left_rowStart (hx : cur.x = 0) (hy : cur.y ≠ 0) :
    Cursor.left cur = { cur with x := cur.xm, y := cur.y - 1 } := by
  rw [Cursor.left, if_neg (not_not_intro hx), Cursor.up, if_pos hy]

theorem back_inRow (hx : cur.x ≠ 0) : Cursor.back cur = { cur with x := cur.x - 1 } := by
  rw [Cursor.back, if_pos hx, left_inRow hx]

/-- From the start of a row `back` goes to the start of the row above. -/
theorem back_rowStart (hx : cur.x = 0) (hy : cur.y ≠ 0) :
    Cursor.back cur = { cur with y := cur.y - 1 } := by
  rw [Cursor.back, if_neg (not_not_intro hx), if_pos hy, Cursor.up, if_pos hy]

/-! ## The grid -/

/-- The limits are kept, and a cursor on the grid stays on it. -/
structure Stays (cur cur' : Cursor) : Prop where
  xm : cur'.xm = cur.xm
  ym : cur'.ym = cur.ym
  onGrid : OnGrid cur → OnGrid cur'

theorem Stays.refl (cur : Cursor) : Stays cur cur := ⟨rfl, rfl, id⟩

theorem Stays.trans {first second third : Cursor} (hfirst : Stays first second)
    (hsecond : Stays second third) : Stays first third :=
  ⟨hsecond.xm.trans hfirst.xm, hsecond.ym.trans hfirst.ym, hsecond.onGrid ∘ hfirst.onGrid⟩

/-- A step to a column of the grid. -/
theorem stays_column (cur : Cursor) {x : Word32} (hx : OnGrid cur → x ≤ cur.xm) :
    Stays cur { cur with x := x } :=
  ⟨rfl, rfl, fun hgrid => ⟨hx hgrid, hgrid.y⟩⟩

theorem stays_row (cur : Cursor) {y : Word32} (hy : OnGrid cur → y ≤ cur.ym) :
    Stays cur { cur with y := y } :=
  ⟨rfl, rfl, fun hgrid => ⟨hgrid.x, hy hgrid⟩⟩

theorem zero_le (word : Word32) : 0 ≤ word := BitVec.le_def.mpr (Nat.zero_le _)

theorem succ_le {place limit : Word32} (hle : place ≤ limit) (hne : place ≠ limit) :
    place + 1 ≤ limit := by
  bv_omega

theorem pred_le {place limit : Word32} (hle : place ≤ limit) (hne : place ≠ 0) :
    place - 1 ≤ limit := by
  bv_omega

theorem stays_reset (cur : Cursor) : Stays cur (Cursor.reset cur) :=
  (stays_column cur fun _ => zero_le _).trans (stays_row _ fun _ => zero_le _)

theorem stays_down (cur : Cursor) : Stays cur cur.down := by
  rw [Cursor.down]
  split_ifs with hy
  · exact stays_row cur fun hgrid => succ_le hgrid.y hy
  · exact Stays.refl cur

theorem stays_up (cur : Cursor) : Stays cur (Cursor.up cur) := by
  rw [Cursor.up]
  split_ifs with hy
  · exact stays_row cur fun hgrid => pred_le hgrid.y hy
  · exact Stays.refl cur

theorem stays_right (cur : Cursor) : Stays cur cur.right := by
  rw [Cursor.right]
  split_ifs with hx
  · exact stays_column cur fun hgrid => succ_le hgrid.x hx
  · exact (stays_down cur).trans (stays_column _ fun _ => zero_le _)

theorem stays_left (cur : Cursor) : Stays cur (Cursor.left cur) := by
  rw [Cursor.left]
  split_ifs with hx
  · exact stays_column cur fun hgrid => pred_le hgrid.x hx
  · have hup := stays_up cur
    exact hup.trans (stays_column _ fun _ => hup.xm ▸ BitVec.le_refl _)

theorem stays_back (cur : Cursor) : Stays cur (Cursor.back cur) := by
  rw [Cursor.back]
  split_ifs
  · exact stays_left cur
  · exact stays_up cur
  · exact Stays.refl cur

theorem stays_newLine (cur : Cursor) : Stays cur cur.newLine := by
  rw [Cursor.newLine]
  split_ifs
  · exact (stays_column cur fun _ => zero_le _).trans (stays_down _)
  · exact Stays.refl cur

theorem stays_wrap (cur : Cursor) : Stays cur cur.wrap := by
  rw [Cursor.wrap]
  split_ifs
  · exact stays_newLine cur
  · exact Stays.refl cur

/-- `cursor::move` axis by axis. -/
theorem move_eq (cur : Cursor) (x y : Word32) :
    cur.move x y = { cur with
      x := if cur.x + x ≤ cur.xm ∧ cur.x + x ≥ 0 then cur.x + x else cur.x
      y := if cur.y + y ≤ cur.ym ∧ cur.y + y ≥ 0 then cur.y + y else cur.y } := by
  rw [Cursor.move]
  split_ifs <;> rfl

theorem axis_le {position limit step : Word32} (hle : position ≤ limit) :
    (if position + step ≤ limit ∧ position + step ≥ 0 then position + step else position) ≤
      limit := by
  split_ifs with hboth
  · exact hboth.1
  · exact hle

theorem stays_move (cur : Cursor) (x y : Word32) : Stays cur (cur.move x y) := by
  rw [move_eq]
  exact (stays_column cur fun hgrid => axis_le hgrid.x).trans
    (stays_row _ fun hgrid => axis_le hgrid.y)

/-! ## Steps undone -/

/-- The cursor is in the last cell. -/
def AtLast (cur : Cursor) : Prop := cur.x = cur.xm ∧ cur.y = cur.ym

def AtFirst (cur : Cursor) : Prop := cur.x = 0 ∧ cur.y = 0

/-- `back` and `left` undo `right` where it moves to the next cell, and `right` undoes
`left`. -/
def Undone (cur : Cursor) : Prop :=
  (¬ AtLast cur → Cursor.back cur.right = cur ∧ Cursor.left cur.right = cur) ∧
    (¬ AtFirst cur → (Cursor.left cur).right = cur)

theorem left_right (hgrid : OnGrid cur) (hlast : ¬ AtLast cur) : Cursor.left cur.right = cur := by
  by_cases hx : cur.x = cur.xm
  · have hy : cur.y ≠ cur.ym := fun hy => hlast ⟨hx, hy⟩
    rw [right_rowEnd hx hy, left_rowStart rfl (succ_ne_zero hgrid.y hy)]
    dsimp only
    rw [BitVec.add_sub_cancel]
    nth_rewrite 1 [← hx]
    rfl
  · rw [right_inRow hx, left_inRow (succ_ne_zero hgrid.x hx)]
    dsimp only
    rw [BitVec.add_sub_cancel]

theorem right_left (hgrid : OnGrid cur) (hfirst : ¬ AtFirst cur) :
    (Cursor.left cur).right = cur := by
  by_cases hx : cur.x = 0
  · have hy : cur.y ≠ 0 := fun hy => hfirst ⟨hx, hy⟩
    have habove : cur.y - 1 ≠ cur.ym := by
      have := hgrid.y
      bv_omega
    rw [left_rowStart hx hy, right_rowEnd rfl habove]
    dsimp only
    rw [BitVec.sub_add_cancel, ← hx]
  · have hbefore : cur.x - 1 ≠ cur.xm := by
      have := hgrid.x
      bv_omega
    rw [left_inRow hx, right_inRow hbefore]
    dsimp only
    rw [BitVec.sub_add_cancel]

/-- The position is inside a row, or the rows have one column. -/
theorem back_right_iff (hgrid : OnGrid cur) (hlast : ¬ AtLast cur) :
    Cursor.back cur.right = cur ↔ (cur.x = cur.xm → cur.xm = 0) := by
  by_cases hx : cur.x = cur.xm
  · have hy : cur.y ≠ cur.ym := fun hy => hlast ⟨hx, hy⟩
    rw [right_rowEnd hx hy, back_rowStart rfl (succ_ne_zero hgrid.y hy), imp_iff_right hx]
    dsimp only
    rw [BitVec.add_sub_cancel]
    constructor
    · intro hback
      rw [← hx, ← hback]
    · intro hcolumn
      have hfirst : cur.x = 0 := hx.trans hcolumn
      rw [← hfirst]
  · rw [right_inRow hx, back_inRow (succ_ne_zero hgrid.x hx)]
    dsimp only
    rw [BitVec.add_sub_cancel]
    exact iff_of_true rfl fun hend => absurd hend hx

/-- Steps forward and back undo each other everywhere but at the ends of the rows before the
last one, if there is more than one column. -/
theorem undone_iff (hgrid : OnGrid cur) :
    Undone cur ↔ (cur.x = cur.xm → cur.xm = 0 ∨ cur.y = cur.ym) := by
  constructor
  · rintro ⟨hforward, -⟩ hx
    by_contra hneither
    rw [not_or] at hneither
    have hlast : ¬ AtLast cur := fun hlast => hneither.2 hlast.2
    exact hneither.1 ((back_right_iff hgrid hlast).mp (hforward hlast).1 hx)
  · intro hends
    refine ⟨fun hlast => ⟨?_, left_right hgrid hlast⟩, right_left hgrid⟩
    rw [back_right_iff hgrid hlast]
    exact fun hx => (hends hx).resolve_right fun hy => hlast ⟨hx, hy⟩

theorem undone_inRow : Undone ⟨3, 1, 79, 24⟩ :=
  (undone_iff ⟨by decide, by decide⟩).mpr (by decide)

/-- From the end of the first row `right` and `back` lead to its start. -/
theorem back_loses_column :
    (Cursor.back (Cursor.right ⟨79, 0, 79, 24⟩)).x = 0 ∧ ¬ Undone ⟨79, 0, 79, 24⟩ := by
  refine ⟨by decide, fun hundone => ?_⟩
  have hback := congrArg Cursor.x (hundone.1 (fun hlast => absurd hlast.2 (by decide))).1
  exact absurd hback (by decide)

end RedX.TextCursor
