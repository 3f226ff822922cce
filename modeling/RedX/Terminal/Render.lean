import RedX.Screen.Drawing
import RedX.Terminal.Terminal

/-!
# `class TerminalRenderer`

`render` draws the characters of the text buffer over what is on the screen.  It clears
nothing, so what it paints is one layer: the set pixels of all the glyphs in white.
-/

namespace RedX.TerminalRender

open RedX.MachineWord
open RedX.ByteMemory
open RedX.CountedLoop
open RedX.Layers
open RedX.TextRenderer
open RedX.GlyphRenderers
open RedX.PixelBounds
open RedX.Canvas
open RedX.Drawing
open RedX.TextTerminal

/-- `TerminalRenderer::clearChar` -/
def TerminalRenderer.clearChar (screen : Screen) (memory : Memory) (x y color : Word32) : Memory :=
  coverCell x y (fun memory c u => screen.pixel memory (c.setWidth 32) (u.setWidth 32) color) memory

/-- `terminal.textBuffer[x + y * terminal.width]`; the sum is a `size_t`. -/
def charAt (t : Terminal) (x y : Word32) : Byte :=
  t.cells .textBuffer (x.signExtend 64 + y.signExtend 64 * t.width).toInt

def white : Word32 := 0xFFFFFFFF

/-- `TerminalRenderer::render` -/
def TerminalRenderer.render (renderer : TerminalRenderer) (screen : Screen) (terminal : Terminal)
    (memory : Memory) : Memory :=
  intFor terminal.height (fun y memory =>
    intFor terminal.width (fun x memory =>
      if charAt terminal x y = lineFeed then memory
      else renderer.drawChar screen memory (charAt terminal x y) (x * 8) (y * 16) white)
      memory) memory

/-- A mode of a screen with at least one cell, and the font outside of the frame buffer. -/
structure TerminalScreen (buffer : Framebuffer) (font : PsfFont) : Prop where
  mode : Mode buffer
  display : Display buffer
  columns : 8 ≤ buffer.width.toNat
  rows : 16 ≤ buffer.height.toNat
  apart : ∀ chr, FontApart buffer font chr

/-- The cells of the terminal lie on the screen. -/
structure OnScreen (buffer : Framebuffer) (t : Terminal) : Prop where
  columns : (t.width.toNat + 1) * 8 ≤ buffer.width.toNat
  rows : (t.height.toNat + 1) * 16 ≤ buffer.height.toNat

/-- The number of a pixel in rows, by which `Screen::pixel` stores. -/
def rowPoint (buffer : Framebuffer) (column row : ℕ) : ℕ := column + row * buffer.width.toNat

/-- The set pixels of the character in the cell `x` of row `y`. -/
def charPoints (buffer : Framebuffer) (font : PsfFont) (memory : Memory) (x y : ℕ) (chr : Byte) :
    Set ℕ :=
  {point | chr ≠ lineFeed ∧ ∃ row < 16, ∃ column < 8, GlyphBit font memory chr column row ∧
    point = rowPoint buffer (8 * x + column) (16 * y + row)}

/-- The set pixels of `height` rows of `width` characters. -/
def textPoints (buffer : Framebuffer) (font : PsfFont) (memory : Memory) (width height : ℕ)
    (shown : ℕ → Byte) : Set ℕ :=
  {point | ∃ y < height, ∃ x < width,
    point ∈ charPoints buffer font memory x y (shown (x + y * width))}

variable {buffer : Framebuffer} {font : PsfFont} {memory memory' : Memory} {chr : Byte}
  {t : Terminal} {x y color : Word32} {row column : ℕ}

theorem charPoints_zero (x y : ℕ) : charPoints buffer font memory x y 0 = ∅ := by
  rw [Set.eq_empty_iff_forall_notMem]
  rintro point ⟨-, row, -, column, -, ⟨hsome, -⟩, -⟩
  exact hsome rfl

/-- Two texts in different cells. -/
theorem textPoints_union {width height : ℕ} {shown text left : ℕ → Byte}
    (hcells : ∀ position < width * height, shown position = text position ∧ left position = 0 ∨
      shown position = left position ∧ text position = 0) :
    textPoints buffer font memory width height shown =
      textPoints buffer font memory width height text ∪
        textPoints buffer font memory width height left := by
  have hcell : ∀ y < height, ∀ x < width, charPoints buffer font memory x y (shown (x + y * width)) =
      charPoints buffer font memory x y (text (x + y * width)) ∪
        charPoints buffer font memory x y (left (x + y * width)) := by
    intro y hy x hx
    have hrows : (y + 1) * width ≤ height * width := Nat.mul_le_mul_right width hy
    rw [Nat.succ_mul] at hrows
    rcases hcells (x + y * width) (by rw [Nat.mul_comm width]; omega) with
      ⟨hshown, hnone⟩ | ⟨hshown, hnone⟩
    · rw [hshown, hnone, charPoints_zero, Set.union_empty]
    · rw [hshown, hnone, charPoints_zero, Set.empty_union]
  ext point
  constructor
  · rintro ⟨y, hy, x, hx, hpoint⟩
    rw [hcell y hy x hx] at hpoint
    exact hpoint.imp (fun htext => ⟨y, hy, x, hx, htext⟩) fun hleft => ⟨y, hy, x, hx, hleft⟩
  · rintro (⟨y, hy, x, hx, hpoint⟩ | ⟨y, hy, x, hx, hpoint⟩)
    · refine ⟨y, hy, x, hx, ?_⟩
      rw [hcell y hy x hx]
      exact Set.mem_union_left _ hpoint
    · refine ⟨y, hy, x, hx, ?_⟩
      rw [hcell y hy x hx]
      exact Set.mem_union_right _ hpoint

/-! ## One cell -/

theorem TerminalScreen.cell (hscreen : TerminalScreen buffer font) (hcell : Cell buffer x y)
    (hcolumn : column < 8) (hrow : row < 16) (memory : Memory) (color : Word32) :
    (frameCanvas buffer).Paints
      (ink {rowPoint buffer (x.toNat + column) (y.toNat + row)} color) memory
      (Screen.pixel ⟨buffer⟩ memory ((x.setWidth 64 + BitVec.ofNat 64 column).setWidth 32)
        ((y.setWidth 64 + BitVec.ofNat 64 row).setWidth 32) color) := by
  have hscan := pixelOffset_lt hscreen.mode hcell hcolumn hrow le_rfl
  have hplace := pixelOffset_lt hscreen.mode hcell hcolumn hrow hscreen.mode.width_le
  have hlow := hscreen.display.low
  have hsmall := hscreen.display.small
  have hoffset : ∀ stride, pixelOffset stride (x.toNat + column) (y.toNat + row) =
      4 * (x.toNat + column + (y.toNat + row) * stride) := fun stride => (Nat.mul_add 4 _ _).symm
  rw [hoffset] at hscan hplace
  have hpasses : Passes buffer (x.toNat + column) (y.toNat + row) := by
    rw [Passes, hoffset]
    exact (pixelAt_lt_iff hscreen.display (by omega)).mpr (by omega)
  rw [pixel_eq_putAt hscreen.mode hcell hcolumn hrow, putAt, if_pos hpasses, hoffset]
  exact store32_paints hscreen.display (by unfold rowPoint; omega) memory color

/-- The cells of the terminal and their places. -/
theorem OnScreen.place (hon : OnScreen buffer t) {x y : ℕ} (hx : x < t.width.toNat)
    (hy : y < t.height.toNat) :
    (BitVec.ofNat 32 x * 8 : Word32).toNat = 8 * x ∧
      (BitVec.ofNat 32 y * 16 : Word32).toNat = 16 * y ∧
      Cell buffer (BitVec.ofNat 32 x * 8) (BitVec.ofNat 32 y * 16) := by
  have hcolumns := hon.columns
  have hrows := hon.rows
  have hwidth := buffer.width.isLt
  have hheight := buffer.height.isLt
  have hleft : (BitVec.ofNat 32 x * 8 : Word32).toNat = 8 * x := by
    rw [BitVec.toNat_mul, BitVec.toNat_ofNat, show (8 : Word32).toNat = 8 from rfl]
    omega
  have htop : (BitVec.ofNat 32 y * 16 : Word32).toNat = 16 * y := by
    rw [BitVec.toNat_mul, BitVec.toNat_ofNat, show (16 : Word32).toNat = 16 from rfl]
    omega
  exact ⟨hleft, htop, by omega, by omega⟩

theorem drawChar_paints (hscreen : TerminalScreen buffer font) (hon : OnScreen buffer t)
    {x y : ℕ} (hx : x < t.width.toNat) (hy : y < t.height.toNat)
    (hrest : AgreeOutside (frame buffer) memory memory') (chr : Byte) :
    (frameCanvas buffer).Paints (ink (charPoints buffer font memory x y chr) white) memory'
      (if chr = lineFeed then memory'
      else TerminalRenderer.drawChar ⟨font⟩ ⟨buffer⟩ memory' chr (BitVec.ofNat 32 x * 8)
        (BitVec.ofNat 32 y * 16) white) := by
  obtain ⟨hleft, htop, hcell⟩ := hon.place hx hy
  split_ifs with hfeed
  · refine (Canvas.Paints.refl _ memory').congr fun point _ => ink_of_not_mem ?_
    exact fun hpoint => hpoint.1 hfeed
  · have hwidth := buffer.width.isLt
    have hheight := buffer.height.isLt
    have hscan := pixelOffset_lt hscreen.mode hcell (show 7 < 8 by decide)
      (show 15 < 16 by decide) le_rfl
    have hnear : Near buffer (BitVec.ofNat 32 x * 8) (BitVec.ofNat 32 y * 16) := by
      have hlow := hscreen.display.low
      have hsmall := hscreen.display.small
      have hcolumns := hcell.columns
      have hrows := hcell.rows
      have hon := hon.columns
      refine ⟨?_, ?_, ?_⟩
      · omega
      · omega
      · unfold scanPoint
        unfold pixelOffset at hscan
        omega
    refine (drawGlyph_paints hnear (hscreen.apart chr) (fun current row hrow column hcolumn =>
      hscreen.cell hcell hcolumn hrow current white) memory').congr fun point _ => ?_
    congr 1
    ext point
    rw [hleft, htop]
    simp only [charPoints, ne_eq, hfeed, not_false_eq_true, true_and, Set.mem_ofPred_eq]
    refine exists_congr fun row => and_congr_right fun hrow => ?_
    simp only [GlyphBit, hrest _ (hscreen.apart chr row hrow)]

/-! ## The whole text -/

theorem intPasses_of_le {count : Word64} (hcount : count.toNat ≤ 2 ^ 31) :
    intPasses count = count.toNat := if_pos hcount

/-- The cell that `render` reads. -/
theorem charAt_eq (hon : OnScreen buffer t) {x y : ℕ} (hx : x < t.width.toNat)
    (hy : y < t.height.toNat) :
    charAt t (BitVec.ofNat 32 x) (BitVec.ofNat 32 y) =
      t.cells .textBuffer ((x + y * t.width.toNat : ℕ) : ℤ) := by
  have hcolumns := hon.columns
  have hrows := hon.rows
  have hwidth := buffer.width.isLt
  have hheight := buffer.height.isLt
  have hx' : (BitVec.ofNat 32 x).toNat = x := by
    rw [BitVec.toNat_ofNat]
    omega
  have hy' : (BitVec.ofNat 32 y).toNat = y := by
    rw [BitVec.toNat_ofNat]
    omega
  have hproduct : y * t.width.toNat ≤ 2 ^ 28 * 2 ^ 29 := Nat.mul_le_mul (by omega) (by omega)
  have hindex : ((BitVec.ofNat 32 x).signExtend 64 +
      (BitVec.ofNat 32 y).signExtend 64 * t.width).toNat = x + y * t.width.toNat := by
    rw [BitVec.toNat_add, BitVec.toNat_mul, toNat_signExtend_of_lt (by omega),
      toNat_signExtend_of_lt (by omega), hx', hy']
    omega
  rw [charAt, BitVec.toInt_eq_toNat_of_lt (by omega), hindex]

/-- `render` puts white pixels on the text of the buffer and changes nothing else. -/
theorem render_paints (hscreen : TerminalScreen buffer font) (hon : OnScreen buffer t)
    (hrest : AgreeOutside (frame buffer) memory memory') :
    (frameCanvas buffer).Paints
      (ink (textPoints buffer font memory t.width.toNat t.height.toNat
        fun position => t.cells .textBuffer position) white) memory'
      (TerminalRenderer.render ⟨font⟩ ⟨buffer⟩ t memory') := by
  have hcolumns := hon.columns
  have hrows := hon.rows
  have hwidth := buffer.width.isLt
  have hheight := buffer.height.isLt
  rw [TerminalRenderer.render, intFor_eq_forLoop, intPasses_of_le (by omega)]
  refine forLoop_paints (fun _ => Iff.rfl) fun y hy before hbefore => ?_
  rw [intFor_eq_forLoop, intPasses_of_le (by omega)]
  refine forLoop_paints (fun _ => Iff.rfl) fun x hx current hcurrent => ?_
  have hkept : AgreeOutside (frame buffer) memory current :=
    hrest.trans ((frameCanvas buffer).rest.trans hbefore hcurrent)
  have hpaints := drawChar_paints hscreen hon hx hy hkept
    (charAt t (BitVec.ofNat 32 x) (BitVec.ofNat 32 y))
  rwa [charAt_eq hon hx hy] at hpaints ⊢

end RedX.TerminalRender
