import RedX.Hid.Mouse
import RedX.Screen.TextCursor

/-!
# Mouse movement

`processMPacket` hands signed movements to `cursor::move`, which takes them as unsigned words
and adds them modulo `2 ^ 32`.  For a cursor with limits below `2 ^ 31` the one comparison
that `move` makes on an axis is still the range check of the signed sum.
-/

namespace RedX.MouseMotion

open RedX.MachineWord
open RedX.TextCursor
open RedX.MouseInput

/-- The 9-bit number of a sign and a byte, 255 further from zero on overflow. -/
def moved (sign overflow : Bool) (byte : Byte) : ℤ :=
  (BitVec.ofBool sign ++ byte).toInt + if overflow then if sign then -255 else 255 else 0

def dx (packet : Packet) : ℤ :=
  moved (packet.first.getLsbD 4) (packet.first.getLsbD 6) packet.second

def dy (packet : Packet) : ℤ :=
  moved (packet.first.getLsbD 5) (packet.first.getLsbD 7) packet.third

/-- A position moved by a step that does not leave the range, and unchanged otherwise. -/
def clamped (limit position : ℕ) (step : ℤ) : ℤ :=
  if 0 ≤ position + step ∧ position + step ≤ limit then position + step else position

variable {position limit step : Word32} {m : Mouse}

/-! ## Words as signed numbers -/

theorem toInt_nine : ∀ (sign : Bool) (byte : Byte),
    (BitVec.ofBool sign ++ byte).toInt = byte.toNat - if sign then 256 else 0 := by
  decide +kernel

theorem toInt_movement (neg oFlow : Bool) (byte : Byte) :
    (movement neg oFlow byte).toInt = moved neg oFlow byte := by
  have hbyte := byte.isLt
  rw [moved, toInt_nine, BitVec.toInt_eq_toNat_cond]
  cases neg <;> cases oFlow <;> simp [movement] <;> omega

theorem moved_bounds (neg oFlow : Bool) (byte : Byte) :
    -511 ≤ moved neg oFlow byte ∧ moved neg oFlow byte ≤ 510 := by
  have hbyte := byte.isLt
  rw [moved, toInt_nine]
  cases neg <;> cases oFlow <;> simp <;> omega

theorem toInt_neg_movement (neg oFlow : Bool) (byte : Byte) :
    (-movement neg oFlow byte).toInt = -moved neg oFlow byte := by
  have hbounds := moved_bounds neg oFlow byte
  rw [BitVec.toInt_neg, toInt_movement]
  exact Int.bmod_eq_of_le (by omega) (by omega)

/-- The unsigned comparison of a sum that wraps is the range check of the signed sum. -/
theorem add_le_iff (hle : position ≤ limit) (hlimit : limit.toNat < 2 ^ 31) :
    position + step ≤ limit ↔ 0 ≤ (position.toNat : ℤ) + step.toInt ∧
      (position.toNat : ℤ) + step.toInt ≤ limit.toNat := by
  have hstep := step.isLt
  rw [BitVec.le_def] at hle ⊢
  rw [BitVec.toNat_add, BitVec.toInt_eq_toNat_cond]
  split_ifs <;> omega

theorem toNat_add_of_le (hle : position ≤ limit) (hlimit : limit.toNat < 2 ^ 31)
    (hsum : position + step ≤ limit) :
    ((position + step).toNat : ℤ) = position.toNat + step.toInt := by
  have hstep := step.isLt
  rw [BitVec.le_def] at hle hsum
  rw [BitVec.toNat_add] at hsum ⊢
  rw [BitVec.toInt_eq_toNat_cond]
  split_ifs <;> omega

/-- One axis of `move`. -/
theorem axis_eq_clamped (hle : position ≤ limit) (hlimit : limit.toNat < 2 ^ 31) :
    (((if position + step ≤ limit ∧ position + step ≥ 0 then position + step
      else position).toNat : ℕ) : ℤ) = clamped limit.toNat position.toNat step.toInt := by
  have hrange : position + step ≤ limit ↔ _ := add_le_iff hle hlimit
  by_cases hsum : position + step ≤ limit
  · rw [if_pos ⟨hsum, BitVec.le_def.mpr (Nat.zero_le _)⟩, clamped, if_pos (hrange.mp hsum),
      toNat_add_of_le hle hlimit hsum]
  · rw [if_neg fun hboth => hsum hboth.1, clamped, if_neg fun hinside => hsum (hrange.mpr hinside)]

/-! ## The packet -/

theorem flag_eq : ∀ byte : Byte, decide (byte &&& 0b00010000 ≠ 0) = byte.getLsbD 4 ∧
    decide (byte &&& 0b00100000 ≠ 0) = byte.getLsbD 5 ∧
    decide (byte &&& 0b01000000 ≠ 0) = byte.getLsbD 6 ∧
    decide (byte &&& 0b10000000 ≠ 0) = byte.getLsbD 7 := by
  decide +kernel

theorem processMPacket_eq (hready : m.mReady = true) :
    ∃ xMov yMov, xMov.toInt = dx m.packet ∧ yMov.toInt = -dy m.packet ∧
      m.processMPacket = { m with mouse := m.mouse.move xMov yMov, mReady := false } := by
  obtain ⟨hxSign, hySign, hxOFlow, hyOFlow⟩ := flag_eq (m.mPacket 0)
  refine ⟨_, _, toInt_movement _ _ _, toInt_neg_movement _ _ _, ?_⟩
  rw [Mouse.processMPacket, hready]
  dsimp only
  rw [hxSign, hySign, hxOFlow, hyOFlow]
  rfl

/-- `processMPacket` has no effect once the packet is consumed. -/
theorem iterate_processMPacket (m : Mouse) (calls : ℕ) :
    Mouse.processMPacket^[calls + 1] m = m.processMPacket := by
  have hidle : m.processMPacket.mReady = false := by
    cases hready : m.mReady with
    | false => rw [processMPacket_idle hready, hready]
    | true => exact (processMPacket_ready hready).1
  rw [Function.iterate_succ_apply]
  exact Function.iterate_fixed (processMPacket_idle hidle) calls

/-- For every packet that waits and every cursor on a grid with limits below `2 ^ 31`, each
axis moves by its signed movement if that stays on the grid, and not at all otherwise. -/
theorem processMPacket_moves (hready : m.mReady = true) (hgrid : OnGrid m.mouse)
    (hxm : m.mouse.xm.toNat < 2 ^ 31) (hym : m.mouse.ym.toNat < 2 ^ 31) :
    ((m.processMPacket.mouse.x.toNat : ℤ) =
        clamped m.mouse.xm.toNat m.mouse.x.toNat (dx m.packet) ∧
      (m.processMPacket.mouse.y.toNat : ℤ) =
        clamped m.mouse.ym.toNat m.mouse.y.toNat (-dy m.packet)) ∧
      (m.processMPacket.mouse.xm = m.mouse.xm ∧ m.processMPacket.mouse.ym = m.mouse.ym ∧
        OnGrid m.processMPacket.mouse) ∧
      m.processMPacket.mReady = false ∧
        ∀ calls, Mouse.processMPacket^[calls + 1] m = m.processMPacket := by
  obtain ⟨xMov, yMov, hxMov, hyMov, hmouse⟩ := processMPacket_eq hready
  have hrepeat := iterate_processMPacket m
  rw [hmouse] at hrepeat ⊢
  refine ⟨⟨?_, ?_⟩, ⟨?_, ?_, (stays_move m.mouse xMov yMov).onGrid hgrid⟩, rfl, hrepeat⟩
  · rw [move_eq, ← hxMov]
    exact axis_eq_clamped hgrid.x hxm
  · rw [move_eq, ← hyMov]
    exact axis_eq_clamped hgrid.y hym
  · rw [move_eq]
  · rw [move_eq]

/-- A packet that moves eight to the left and three down, with the cursor in column 5. -/
def corner : Mouse :=
  ⟨0, fun i => [0b00111000, 0xF8, 0xFD, 0].getD i 0, true, ⟨5, 7, 99, 49⟩⟩

theorem processMPacket_moves_corner :
    corner.processMPacket.mouse.x.toNat = 5 ∧ corner.processMPacket.mouse.y.toNat = 10 := by
  obtain ⟨⟨hx, hy⟩, -⟩ := processMPacket_moves (m := corner) rfl ⟨by decide, by decide⟩
    (by decide) (by decide)
  exact ⟨Int.ofNat_inj.mp (hx.trans (by decide)), Int.ofNat_inj.mp (hy.trans (by decide))⟩

end RedX.MouseMotion
