import RedX.Terminal.MainLoop

/-!
# The screen of the main loop

`_start` clears the screen before its loop, so what the boot has drawn is gone: from then on
the screen is text in white on black.
-/

namespace RedX.ClearedScreen

open RedX.MachineWord
open RedX.ByteMemory
open RedX.PartialRun
open RedX.Layers
open RedX.TextRenderer
open RedX.PixelBounds
open RedX.Canvas
open RedX.Drawing
open RedX.TextTerminal
open RedX.TerminalRender
open RedX.KeyboardInput (Keyboard)
open RedX.InputQueue
open RedX.MainLoop

variable {buffer : Framebuffer} {font : PsfFont} {memory : Memory} {beyond : Byte}
  {pool : Buffer → ℤ → Byte} {keyboard : Keyboard} {events : List MainLoop.Event}
  {final : MainLoop.Kernel}

theorem mem_rectPoints_of_visible (hscreen : TerminalScreen buffer font) {column row : ℕ}
    (hcolumn : column < buffer.width.toNat) (hrow : row < buffer.height.toNat) :
    4 * scanPoint buffer column row < buffer.size.toNat ∧
      scanPoint buffer column row ∈
        rectPoints buffer 0 0 (buffer.width - 1) (buffer.height - 1) := by
  have hwidth := hscreen.mode.width_le
  have hfits := hscreen.mode.fits
  have hsmall := hscreen.mode.small
  have hcolumns := buffer.width.isLt
  have hrows := buffer.height.isLt
  have hline : (row + 1) * buffer.ppsl.toNat ≤ buffer.height.toNat * buffer.ppsl.toNat :=
    Nat.mul_le_mul_right _ hrow
  rw [Nat.succ_mul] at hline
  have hinside : 4 * scanPoint buffer column row < buffer.size.toNat := by
    rw [scanPoint]
    omega
  have hcolumn32 : (BitVec.ofNat 32 column).toNat = column := by
    rw [BitVec.toNat_ofNat, Nat.mod_eq_of_lt (by omega)]
  have hrow32 : (BitVec.ofNat 32 row).toNat = row := by
    rw [BitVec.toNat_ofNat, Nat.mod_eq_of_lt (by omega)]
  have hone : (1 : Word32).toNat = 1 := rfl
  refine ⟨hinside, BitVec.ofNat 32 column, BitVec.ofNat 32 row, ⟨?_, ?_⟩, ⟨?_, ?_⟩, ?_⟩
  · exact Nat.zero_le _
  · rw [BitVec.le_def, hcolumn32, BitVec.toNat_sub, hone]
    omega
  · exact Nat.zero_le _
  · rw [BitVec.le_def, hrow32, BitVec.toNat_sub, hone]
    omega
  · have hpoint : scanPoint buffer column row < 2 ^ 30 := by omega
    rw [seen, hcolumn32, hrow32]
    exact (Nat.mod_eq_of_lt hpoint).symm

/-- The pixels that the characters consumed so far have made white, and those of the last cell. -/
def whitePoints (buffer : Framebuffer) (font : PsfFont) (memory : Memory) (t : Terminal)
    (chars : List Byte) : Set ℕ :=
  everPoints buffer font memory t chars ∪ leftPoints buffer font memory t

/-- The small screen after `cls`, over memory of ones. -/
def clearedMemory : Memory :=
  (Drawing.BasicRenderer.cls ⟨smallBuffer, smallFont⟩ fun _ => 1).getD fun _ => 0

theorem cls_small :
    Drawing.BasicRenderer.cls ⟨smallBuffer, smallFont⟩ (fun _ => 1) = some clearedMemory := by
  have hends : BasicRenderer.rect ⟨smallBuffer, smallFont⟩ (fun _ => 1) 0 0
      (smallBuffer.width - 1) (smallBuffer.height - 1) 0 ≠ none :=
    mt rect_eq_none_iff.mp (by decide)
  obtain ⟨memory, hmemory⟩ := Option.ne_none_iff_exists'.mp hends
  have hcls : Drawing.BasicRenderer.cls ⟨smallBuffer, smallFont⟩ (fun _ => 1) = some memory :=
    hmemory
  rw [clearedMemory, hcls]
  rfl

end RedX.ClearedScreen
