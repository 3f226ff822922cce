import RedX.Screen.TextRenderer

/-!
# The two glyph renderers

`basicRenderer::printChar` and `TerminalRenderer::drawChar` run the same loop over the
pixels of a cell.  The first finds a pixel with `ppsl` for both the bounds check and the
store; the second, through `Screen::pixel`, checks with `ppsl` and stores with `Width`.
-/

namespace RedX.GlyphRenderers

open RedX.MachineWord
open RedX.ByteMemory
open RedX.CountedLoop
open RedX.TextRenderer

/-- `class Screen`; the pixels are put into its double buffer. -/
structure Screen where
  doubleBuffer : Framebuffer

/-- `Screen::pixel(int x, int y, uint32_t color)`.  The sums are `unsigned int`s that are
added to a pointer. -/
def Screen.pixel (screen : Screen) (memory : Memory) (x y color : Word32) : Memory :=
  let doubleBuffer := screen.doubleBuffer
  if (x * 4 + y * doubleBuffer.ppsl * 4).setWidth 64 + doubleBuffer.baseAddr <
      doubleBuffer.baseAddr + doubleBuffer.size then
    store32 memory (doubleBuffer.baseAddr + (x + y * doubleBuffer.width).setWidth 64 * 4) color
  else memory

structure TerminalRenderer where
  font : PsfFont

/-- The loop over the pixels of a cell, with what is done at a set one. -/
def drawGlyph (font : PsfFont) (chr : Byte) (x y : Word32)
    (put : Memory → Word64 → Word64 → Memory) (memory : Memory) : Memory :=
  if chr = 0x00 then memory
  else
    let glyph := (chr.signExtend 32 * font.charsize.setWidth 32).signExtend 64
    let fontPtr := font.buffer + glyph
    forLoop ((y + 16).toNat - y.toNat) (fun row memory =>
      forLoop ((x + 8).toNat - x.toNat) (fun column memory =>
        if memory (fontPtr + BitVec.ofNat 64 row) &&& (0b10000000#8 >>> column) > 0 then
          put memory (x.setWidth 64 + BitVec.ofNat 64 column)
            (y.setWidth 64 + BitVec.ofNat 64 row)
        else memory) memory) memory

/-- `TerminalRenderer::drawChar`; the pixel positions are `unsigned long`s that
`Screen::pixel` takes as `int`s. -/
def TerminalRenderer.drawChar (renderer : TerminalRenderer) (screen : Screen) (memory : Memory)
    (chr : Byte) (x y color : Word32) : Memory :=
  drawGlyph renderer.font chr x y
    (fun memory c u => screen.pixel memory (c.setWidth 32) (u.setWidth 32) color) memory

/-- A mode in which a row of pixels is not longer than a scan line and the scan lines fit
the frame buffer. -/
structure Mode (buffer : Framebuffer) : Prop where
  width_pos : 1 ≤ buffer.width.toNat
  width_le : buffer.width.toNat ≤ buffer.ppsl.toNat
  fits : buffer.height.toNat * buffer.ppsl.toNat * 4 ≤ buffer.size.toNat
  small : buffer.size.toNat < 2 ^ 31

/-- The pixels of the cell lie on the screen. -/
structure Cell (buffer : Framebuffer) (x y : Word32) : Prop where
  columns : x.toNat + 8 ≤ buffer.width.toNat
  rows : y.toNat + 16 ≤ buffer.height.toNat

/-- The two memories agree on the bytes of the frame buffer. -/
def SameFrame (buffer : Framebuffer) (memory memory' : Memory) : Prop :=
  ∀ address, offset buffer.baseAddr address < buffer.size.toNat →
    memory address = memory' address

/-- The two renderers draw the same, whatever the font, the colour and the memory. -/
def Agree (buffer : Framebuffer) (chr : Byte) (x y : Word32) : Prop :=
  ∀ font memory color, SameFrame buffer
    (TerminalRenderer.drawChar ⟨font⟩ ⟨buffer⟩ memory chr x y color)
    (BasicRenderer.printCharAt ⟨buffer, font⟩ memory chr x y color)

/-- Byte offset of a pixel in a buffer whose rows are `stride` pixels apart. -/
def pixelOffset (stride column row : ℕ) : ℕ := 4 * column + 4 * (row * stride)

/-- The pixel passes the bounds check. -/
def Passes (buffer : Framebuffer) (column row : ℕ) : Prop :=
  buffer.baseAddr + BitVec.ofNat 64 (pixelOffset buffer.ppsl.toNat column row) <
    buffer.baseAddr + buffer.size

instance (buffer : Framebuffer) (column row : ℕ) : Decidable (Passes buffer column row) :=
  inferInstanceAs (Decidable (_ < _))

variable {buffer : Framebuffer} {font : PsfFont} {chr : Byte} {x y color : Word32}
  {memory : Memory} {row column : ℕ}

theorem printCharAt_eq_drawGlyph (buffer : Framebuffer) (font : PsfFont) (memory : Memory)
    (chr : Byte) (x y color : Word32) :
    BasicRenderer.printCharAt ⟨buffer, font⟩ memory chr x y color =
      drawGlyph font chr x y (fun memory c u => buffer.putPixel memory c u color) memory := rfl

/-- The pixel lies inside the frame buffer, at its offset with either stride. -/
theorem pixelOffset_lt (hmode : Mode buffer) (hcell : Cell buffer x y) (hcolumn : column < 8)
    (hrow : row < 16) {stride : ℕ} (hstride : stride ≤ buffer.ppsl.toNat) :
    pixelOffset stride (x.toNat + column) (y.toNat + row) + 4 ≤ buffer.size.toNat := by
  have hrows : (y.toNat + row + 1) * buffer.ppsl.toNat ≤
      buffer.height.toNat * buffer.ppsl.toNat :=
    Nat.mul_le_mul_right _ (by have := hcell.rows; omega)
  have hline : (y.toNat + row) * stride ≤ (y.toNat + row) * buffer.ppsl.toNat :=
    Nat.mul_le_mul_left _ hstride
  have hcolumns := hcell.columns
  have hwidth := hmode.width_le
  have hfits := hmode.fits
  rw [Nat.succ_mul] at hrows
  unfold pixelOffset
  omega

/-- The store of a pixel with rows `stride` pixels apart. -/
def putAt (buffer : Framebuffer) (stride : ℕ) (memory : Memory) (column row : ℕ)
    (color : Word32) : Memory :=
  if Passes buffer column row then
    store32 memory (buffer.baseAddr + BitVec.ofNat 64 (pixelOffset stride column row)) color
  else memory

theorem setWidth_add (word : Word32) (step : ℕ) :
    word.setWidth 64 + BitVec.ofNat 64 step = BitVec.ofNat 64 (word.toNat + step) := by
  rw [BitVec.ofNat_add, BitVec.ofNat_toNat]

theorem ofNat_pixelOffset (width stride column row : ℕ) :
    BitVec.ofNat width (pixelOffset stride column row) =
      BitVec.ofNat width column * 4 + BitVec.ofNat width row * BitVec.ofNat width stride * 4 := by
  rw [pixelOffset, BitVec.ofNat_add, BitVec.ofNat_mul, BitVec.ofNat_mul, BitVec.ofNat_mul]
  ac_rfl

/-- `basicRenderer` stores with the stride it checks with. -/
theorem putPixel_eq_putAt (buffer : Framebuffer) (memory : Memory) (x y color : Word32)
    (column row : ℕ) :
    buffer.putPixel memory (x.setWidth 64 + BitVec.ofNat 64 column)
        (y.setWidth 64 + BitVec.ofNat 64 row) color =
      putAt buffer buffer.ppsl.toNat memory (x.toNat + column) (y.toNat + row) color := by
  have haddress : buffer.pixelAddress (BitVec.ofNat 64 (x.toNat + column))
      (BitVec.ofNat 64 (y.toNat + row)) = buffer.baseAddr +
        BitVec.ofNat 64 (pixelOffset buffer.ppsl.toNat (x.toNat + column) (y.toNat + row)) := by
    rw [Framebuffer.pixelAddress, ofNat_pixelOffset, BitVec.ofNat_toNat, BitVec.add_comm]
  rw [setWidth_add, setWidth_add, Framebuffer.putPixel, haddress, putAt]
  rfl

theorem setWidth_ofNat {value : ℕ} (hvalue : value < 2 ^ 32) :
    (BitVec.ofNat 32 value).setWidth 64 = BitVec.ofNat 64 value := by
  apply BitVec.eq_of_toNat_eq
  rw [BitVec.toNat_setWidth, BitVec.toNat_ofNat, BitVec.toNat_ofNat]
  omega

/-- `Screen::pixel` stores with the stride `Width`. -/
theorem pixel_eq_putAt (hmode : Mode buffer) (hcell : Cell buffer x y) (hcolumn : column < 8)
    (hrow : row < 16) (memory : Memory) (color : Word32) :
    Screen.pixel ⟨buffer⟩ memory ((x.setWidth 64 + BitVec.ofNat 64 column).setWidth 32)
        ((y.setWidth 64 + BitVec.ofNat 64 row).setWidth 32) color =
      putAt buffer buffer.width.toNat memory (x.toNat + column) (y.toNat + row) color := by
  have hsmall := hmode.small
  have hcheck := pixelOffset_lt hmode hcell hcolumn hrow le_rfl
  have hstore := pixelOffset_lt hmode hcell hcolumn hrow hmode.width_le
  have hint : ∀ value : ℕ, (BitVec.ofNat 64 value).setWidth 32 = BitVec.ofNat 32 value := by
    intro value
    apply BitVec.eq_of_toNat_eq
    rw [BitVec.toNat_setWidth, BitVec.toNat_ofNat, BitVec.toNat_ofNat]
    omega
  have hpasses : (BitVec.ofNat 32 (x.toNat + column) * 4 +
      BitVec.ofNat 32 (y.toNat + row) * buffer.ppsl * 4).setWidth 64 + buffer.baseAddr =
      buffer.baseAddr +
        BitVec.ofNat 64 (pixelOffset buffer.ppsl.toNat (x.toNat + column) (y.toNat + row)) := by
    rw [← setWidth_ofNat (by omega), ofNat_pixelOffset, BitVec.ofNat_toNat, BitVec.setWidth_eq,
      BitVec.add_comm]
  have hindex : (BitVec.ofNat 32 (x.toNat + column) +
      BitVec.ofNat 32 (y.toNat + row) * buffer.width).setWidth 64 * 4 =
      BitVec.ofNat 64 (pixelOffset buffer.width.toNat (x.toNat + column) (y.toNat + row)) := by
    unfold pixelOffset at hstore ⊢
    have hword : BitVec.ofNat 32 (x.toNat + column) +
        BitVec.ofNat 32 (y.toNat + row) * buffer.width =
        BitVec.ofNat 32 (x.toNat + column + (y.toNat + row) * buffer.width.toNat) := by
      rw [BitVec.ofNat_add _ ((y.toNat + row) * _), BitVec.ofNat_mul, BitVec.ofNat_toNat,
        BitVec.setWidth_eq]
    rw [hword, setWidth_ofNat (by omega), ← Nat.mul_add, Nat.mul_comm 4, BitVec.ofNat_mul]
    rfl
  rw [setWidth_add, setWidth_add, hint, hint, Screen.pixel, hpasses, hindex, putAt]
  rfl

/-! ## The loops -/

theorem drawGlyph_congr {put put' : Memory → Word64 → Word64 → Memory}
    (hput : ∀ memory, ∀ column < 8, ∀ row < 16,
      put memory (x.setWidth 64 + BitVec.ofNat 64 column) (y.setWidth 64 + BitVec.ofNat 64 row) =
        put' memory (x.setWidth 64 + BitVec.ofNat 64 column)
          (y.setWidth 64 + BitVec.ofNat 64 row)) (memory : Memory) :
    drawGlyph font chr x y put memory = drawGlyph font chr x y put' memory := by
  rw [drawGlyph, drawGlyph]
  split_ifs with hzero
  · rfl
  · refine forLoop_congr (fun row hrow before => ?_) memory
    refine forLoop_congr (fun column hcolumn current => ?_) before
    rw [hput current column (by bv_omega) row (by bv_omega)]

/-- The two renderers draw the same where they store the pixels of the cell alike. -/
theorem drawChar_eq_printCharAt (hmode : Mode buffer) (hcell : Cell buffer x y)
    (hstores : ∀ memory, ∀ column < 8, ∀ row < 16,
      putAt buffer buffer.width.toNat memory (x.toNat + column) (y.toNat + row) color =
        putAt buffer buffer.ppsl.toNat memory (x.toNat + column) (y.toNat + row) color) :
    TerminalRenderer.drawChar ⟨font⟩ ⟨buffer⟩ memory chr x y color =
      BasicRenderer.printCharAt ⟨buffer, font⟩ memory chr x y color := by
  rw [printCharAt_eq_drawGlyph, TerminalRenderer.drawChar]
  refine drawGlyph_congr (fun memory column hcolumn row hrow => ?_) memory
  rw [pixel_eq_putAt hmode hcell hcolumn hrow, putPixel_eq_putAt]
  exact hstores memory column hcolumn row hrow

/-- The modes, characters and cells for which every glyph is drawn the same: the scan
lines have no padding, the character is NUL, or no pixel below the first row of the screen
passes the bounds check. -/
def AgreeCondition (buffer : Framebuffer) (chr : Byte) (x y : Word32) : Prop :=
  buffer.width = buffer.ppsl ∨ chr = 0 ∨
    ∀ column < 8, ∀ row < 16, Passes buffer (x.toNat + column) (y.toNat + row) →
      y.toNat + row = 0

theorem agree_of_condition (hmode : Mode buffer) (hcell : Cell buffer x y)
    (hcondition : AgreeCondition buffer chr x y) : Agree buffer chr x y := by
  intro font memory color address _
  rcases hcondition with hwidth | rfl | hfirst
  · rw [drawChar_eq_printCharAt hmode hcell fun _ _ _ _ _ => by rw [hwidth]]
  · rfl
  · rw [drawChar_eq_printCharAt hmode hcell fun memory column hcolumn row hrow => ?_]
    rw [putAt, putAt]
    split_ifs with hpasses
    · rw [hfirst column hcolumn row hrow hpasses, pixelOffset, pixelOffset, Nat.zero_mul,
        Nat.zero_mul]
    · rfl

/-! ## A glyph with one set pixel -/

/-- Memory that is clear but for one bit of the glyph at `fontPtr`. -/
def lit (fontPtr : Word64) (row column : ℕ) : Memory := fun address =>
  if address = fontPtr + BitVec.ofNat 64 row then 0b10000000#8 >>> column else 0

theorem lit_add (fontPtr : Word64) (column : ℕ) {row other : ℕ} (hrow : row < 16)
    (hother : other < 16) :
    lit fontPtr row column (fontPtr + BitVec.ofNat 64 other) =
      if other = row then 0b10000000#8 >>> column else 0 := by
  rw [lit]
  by_cases hsame : other = row
  · rw [if_pos (by rw [hsame]), if_pos hsame]
  · rw [if_neg (by bv_omega), if_neg hsame]

theorem mask_and_mask {other : ℕ} (hcolumn : column < 8) (hother : other < 8) :
    (0b10000000#8 >>> column &&& 0b10000000#8 >>> other > 0) ↔ other = column := by
  have hmasks : ∀ left right : Fin 8,
      (0b10000000#8 >>> left.val &&& 0b10000000#8 >>> right.val > 0) ↔ right = left := by
    decide
  simpa using hmasks ⟨column, hcolumn⟩ ⟨other, hother⟩

/-- Only the set pixel is put. -/
theorem drawGlyph_lit {put : Memory → Word64 → Word64 → Memory} {fontPtr : Word64}
    (hchr : chr ≠ 0) (hfont : font.buffer +
      (chr.signExtend 32 * font.charsize.setWidth 32).signExtend 64 = fontPtr)
    (hx : x.toNat + 8 < 2 ^ 32) (hy : y.toNat + 16 < 2 ^ 32) (hrow : row < 16)
    (hcolumn : column < 8)
    (hkept : ∀ other < 16, put (lit fontPtr row column) (x.setWidth 64 + BitVec.ofNat 64 column)
      (y.setWidth 64 + BitVec.ofNat 64 row) (fontPtr + BitVec.ofNat 64 other) =
        lit fontPtr row column (fontPtr + BitVec.ofNat 64 other)) :
    drawGlyph font chr x y put (lit fontPtr row column) =
      put (lit fontPtr row column) (x.setWidth 64 + BitVec.ofNat 64 column)
        (y.setWidth 64 + BitVec.ofNat 64 row) := by
  have hcolumns : (x + 8).toNat - x.toNat = 8 := by bv_omega
  have hrows : (y + 16).toNat - y.toNat = 16 := by bv_omega
  have hdark : ∀ (memory : Memory) (other : ℕ), memory (fontPtr + BitVec.ofNat 64 other) = 0 →
      forLoop 8 (fun column memory =>
        if memory (fontPtr + BitVec.ofNat 64 other) &&& (0b10000000#8 >>> column) > 0 then
          put memory (x.setWidth 64 + BitVec.ofNat 64 column)
            (y.setWidth 64 + BitVec.ofNat 64 other)
        else memory) memory = memory := by
    intro memory other hzero
    refine forLoop_invariant (fun _ current => current = memory) rfl ?_
    rintro index - current rfl
    rw [hzero]
    exact if_neg (by simp)
  have hbright : forLoop 8 (fun column memory =>
      if memory (fontPtr + BitVec.ofNat 64 row) &&& (0b10000000#8 >>> column) > 0 then
        put memory (x.setWidth 64 + BitVec.ofNat 64 column) (y.setWidth 64 + BitVec.ofNat 64 row)
      else memory) (lit fontPtr row column) =
      put (lit fontPtr row column) (x.setWidth 64 + BitVec.ofNat 64 column)
        (y.setWidth 64 + BitVec.ofNat 64 row) := by
    have hbyte := lit_add fontPtr column hrow hrow
    rw [if_pos rfl] at hbyte
    have hself : (lit fontPtr row column (fontPtr + BitVec.ofNat 64 row) &&&
        (0b10000000#8 >>> column) > 0) := by
      rw [hbyte]
      exact (mask_and_mask hcolumn hcolumn).mpr rfl
    refine (forLoop_single hcolumn (fun other hother => ?_) fun other hafter hother => ?_).trans
      (if_pos hself)
    · rw [hbyte, if_neg]
      rw [mask_and_mask hcolumn (by omega)]
      omega
    · rw [if_pos hself, hkept row hrow, hbyte, if_neg]
      rw [mask_and_mask hcolumn hother]
      omega
  rw [drawGlyph, if_neg hchr]
  dsimp only
  rw [hfont, hcolumns, hrows]
  refine (forLoop_single hrow (fun other hother => ?_) fun other hafter hother => ?_).trans hbright
  · refine hdark _ other ?_
    rw [lit_add fontPtr column hrow (by omega), if_neg (by omega)]
  · rw [hbright]
    refine hdark _ other ?_
    rw [hkept other hother, lit_add fontPtr column hrow hother, if_neg (by omega)]

/-- A pixel whose glyph alone is set at `2 ^ 40` bytes from the frame buffer. -/
theorem drawGlyph_far {put : Memory → Word64 → Word64 → Memory} {stride : ℕ}
    (hmode : Mode buffer) (hcell : Cell buffer x y) (hstride : stride ≤ buffer.ppsl.toNat)
    (hchr : chr ≠ 0) (hrow : row < 16) (hcolumn : column < 8)
    (hpasses : Passes buffer (x.toNat + column) (y.toNat + row))
    (hfont : font.buffer + (chr.signExtend 32 * font.charsize.setWidth 32).signExtend 64 =
      buffer.baseAddr + BitVec.ofNat 64 (2 ^ 40))
    (hput : ∀ memory, put memory (x.setWidth 64 + BitVec.ofNat 64 column)
      (y.setWidth 64 + BitVec.ofNat 64 row) =
        putAt buffer stride memory (x.toNat + column) (y.toNat + row) color) :
    let memory := lit (buffer.baseAddr + BitVec.ofNat 64 (2 ^ 40)) row column
    drawGlyph font chr x y put memory = store32 memory
      (buffer.baseAddr + BitVec.ofNat 64 (pixelOffset stride (x.toNat + column) (y.toNat + row)))
      color := by
  intro memory
  have hsmall := hmode.small
  have hplace := pixelOffset_lt hmode hcell hcolumn hrow hstride
  have hx := buffer.width.isLt
  have hy := buffer.height.isLt
  have hcolumns := hcell.columns
  have hrows := hcell.rows
  have hfits := hmode.fits
  have hone : 1 ≤ buffer.ppsl.toNat := hmode.width_pos.trans hmode.width_le
  have hheight : buffer.height.toNat * 1 ≤ buffer.height.toNat * buffer.ppsl.toNat :=
    Nat.mul_le_mul_left _ hone
  have hstored : put memory (x.setWidth 64 + BitVec.ofNat 64 column)
      (y.setWidth 64 + BitVec.ofNat 64 row) = store32 memory
        (buffer.baseAddr +
          BitVec.ofNat 64 (pixelOffset stride (x.toNat + column) (y.toNat + row))) color := by
    rw [hput, putAt, if_pos hpasses]
  rw [drawGlyph_lit hchr hfont (by omega) (by omega) hrow hcolumn, hstored]
  intro other hother
  rw [hstored, store32, store_of_le_offset]
  rw [BitVec.add_assoc, ← BitVec.ofNat_add, offset_add_add _ (by omega) (by omega)]
  omega

theorem condition_of_agree (hmode : Mode buffer) (hcell : Cell buffer x y)
    (hagree : Agree buffer chr x y) : AgreeCondition buffer chr x y := by
  by_contra hcondition
  rw [AgreeCondition, not_or, not_or] at hcondition
  obtain ⟨hwidth, hchr, hpixel⟩ := hcondition
  push Not at hpixel
  obtain ⟨column, hcolumn, row, hrow, hpasses, hbelow⟩ := hpixel
  have hsmall := hmode.small
  have hcheck := pixelOffset_lt hmode hcell hcolumn hrow le_rfl
  let fontPtr := buffer.baseAddr + BitVec.ofNat 64 (2 ^ 40)
  let font : PsfFont := ⟨16, fontPtr - (chr.signExtend 32 * (16 : Byte).setWidth 32).signExtend 64⟩
  have hfont : font.buffer + (chr.signExtend 32 * font.charsize.setWidth 32).signExtend 64 =
      fontPtr := BitVec.sub_add_cancel _ _
  let shown := pixelOffset buffer.ppsl.toNat (x.toNat + column) (y.toNat + row)
  let shifted := pixelOffset buffer.width.toNat (x.toNat + column) (y.toNat + row)
  have hprinted : BasicRenderer.printCharAt ⟨buffer, font⟩ (lit fontPtr row column) chr x y
      0xFFFFFFFF = store32 (lit fontPtr row column)
        (buffer.baseAddr + BitVec.ofNat 64 shown) 0xFFFFFFFF := by
    rw [printCharAt_eq_drawGlyph]
    exact drawGlyph_far hmode hcell le_rfl hchr hrow hcolumn hpasses hfont fun memory =>
      putPixel_eq_putAt buffer memory x y 0xFFFFFFFF column row
  have hdrawn : TerminalRenderer.drawChar ⟨font⟩ ⟨buffer⟩ (lit fontPtr row column) chr x y
      0xFFFFFFFF = store32 (lit fontPtr row column)
        (buffer.baseAddr + BitVec.ofNat 64 shifted) 0xFFFFFFFF := by
    rw [TerminalRenderer.drawChar]
    exact drawGlyph_far hmode hcell hmode.width_le hchr hrow hcolumn hpasses hfont fun memory =>
      pixel_eq_putAt hmode hcell hcolumn hrow memory 0xFFFFFFFF
  -- the first byte of the pixel as `basicRenderer` stores it
  have hsame := hagree font (lit fontPtr row column) 0xFFFFFFFF
    (buffer.baseAddr + BitVec.ofNat 64 shown)
    (by rw [offset_add_ofNat _ (by omega)]; omega)
  have hshift : shifted + 4 ≤ shown := by
    have hless : buffer.width.toNat < buffer.ppsl.toNat :=
      lt_of_le_of_ne hmode.width_le fun heq => hwidth (BitVec.eq_of_toNat_eq heq)
    have hrows := Nat.mul_lt_mul_of_pos_left hless (Nat.pos_of_ne_zero hbelow)
    change 4 * _ + 4 * _ + 4 ≤ 4 * _ + 4 * _
    omega
  have hclear : lit fontPtr row column (buffer.baseAddr + BitVec.ofNat 64 shown) = 0 := by
    rw [lit, if_neg]
    rw [BitVec.add_assoc, ← BitVec.ofNat_add]
    intro heq
    have hoffsets := congrArg (offset buffer.baseAddr) heq
    rw [offset_add_ofNat _ (by omega), offset_add_ofNat _ (by omega)] at hoffsets
    omega
  rw [hprinted, hdrawn, store32, store32, store_of_le_offset, hclear, store_of_offset_lt,
    offset_self] at hsame
  · exact absurd hsame (by decide)
  · rw [offset_self]
    decide
  · rw [offset_add_add _ (by omega) (by omega)]
    omega

/-- The two renderers agree on a cell exactly under the condition. -/
theorem renderers_agree_iff (hmode : Mode buffer) (hcell : Cell buffer x y) :
    Agree buffer chr x y ↔ AgreeCondition buffer chr x y :=
  ⟨condition_of_agree hmode hcell, agree_of_condition hmode hcell⟩

/-- A screen of one cell, without padding. -/
theorem renderers_agree_unpadded : Agree ⟨0x80000000, 512, 8, 16, 8⟩ 0x41 0 0 :=
  (renderers_agree_iff ⟨by decide, by decide, by decide, by decide⟩
    ⟨by decide, by decide⟩).mpr (Or.inl rfl)

/-- A screen of one cell with one pixel of padding in each scan line, and a glyph whose
only set pixel is the first one of its second row: it is drawn at byte 32 and printed at
byte 36. -/
theorem renderers_differ_padded :
    let buffer : Framebuffer := ⟨0x80000000, 576, 8, 16, 9⟩
    let font : PsfFont := ⟨16, 0x90000000⟩
    let memory : Memory := fun address => if address = 0x90000411 then 0x80 else 0
    Mode buffer ∧ Cell buffer 0 0 ∧
      TerminalRenderer.drawChar ⟨font⟩ ⟨buffer⟩ memory 0x41 0 0 0xFFFFFFFF 0x80000024 = 0 ∧
      BasicRenderer.printCharAt ⟨buffer, font⟩ memory 0x41 0 0 0xFFFFFFFF 0x80000024 = 0xFF := by
  refine ⟨⟨by decide, by decide, by decide, by decide⟩, ⟨by decide, by decide⟩, ?_, ?_⟩
  · decide +kernel
  · decide +kernel

end RedX.GlyphRenderers
