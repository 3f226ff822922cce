import RedX.Screen.Canvas
import RedX.Screen.GlyphReads
import RedX.Screen.TextGrid

/-!
# Drawing

The other members of `class basicRenderer`: pixels, rectangles, cells, the mouse pointer.
Every call paints one layer on the frame buffer, and calls one after the other paint their
layers one over the other.
-/

namespace RedX.Drawing

open RedX.MachineWord
open RedX.ByteMemory
open RedX.CountedLoop
open RedX.Layers
open RedX.TextRenderer
open RedX.GlyphRenderers
open RedX.GlyphReads
  (rowAddress offset_rowAddress offset_rowAddress_of_lt offset_rowAddress_of_ge)
open RedX.PixelBounds
open RedX.Canvas

/-- `basicRenderer::plotPixel`.  The sums are `unsigned int`s that are added to a pointer. -/
def BasicRenderer.plotPixel (renderer : BasicRenderer) (memory : Memory) (x y color : Word32) :
    Memory :=
  let buffer := renderer.buffer
  let address := (x * 4 + y * buffer.ppsl * 4).setWidth 64 + buffer.baseAddr
  if address < buffer.baseAddr + buffer.size then store32 memory address color else memory

/-- `basicRenderer::rect`; its counters are `int`s that are compared with `unsigned int`s. -/
def BasicRenderer.rect (renderer : BasicRenderer) (memory : Memory) (x1 y1 x2 y2 color : Word32) :
    Option Memory :=
  throughFor x1 x2 (fun x memory =>
    throughFor y1 y2 (fun y memory =>
      some (BasicRenderer.plotPixel renderer memory x y color)) memory) memory

/-- `basicRenderer::fill`, the loops of `rect` up to `Width - 1` and `Height - 1`. -/
def BasicRenderer.fill (renderer : BasicRenderer) (memory : Memory) (color : Word32) :
    Option Memory :=
  BasicRenderer.rect renderer memory 0 0 (renderer.buffer.width - 1) (renderer.buffer.height - 1)
    color

/-- `basicRenderer::cls` -/
def BasicRenderer.cls (renderer : BasicRenderer) (memory : Memory) : Option Memory :=
  BasicRenderer.fill renderer memory 0x00000000

/-- The loop over the pixels of a cell. -/
def coverCell (x y : Word32) (put : Memory → Word64 → Word64 → Memory) (memory : Memory) :
    Memory :=
  forLoop ((y + 16).toNat - y.toNat) (fun row memory =>
    forLoop ((x + 8).toNat - x.toNat) (fun column memory =>
      put memory (x.setWidth 64 + BitVec.ofNat 64 column)
        (y.setWidth 64 + BitVec.ofNat 64 row)) memory) memory

/-- `basicRenderer::delChar` -/
def BasicRenderer.delChar (renderer : BasicRenderer) (memory : Memory) (x y color : Word32) :
    Memory :=
  coverCell x y (fun memory c u => renderer.buffer.putPixel memory c u color) memory

/-- `basicRenderer::clChar`, the same loop as `delChar`. -/
def BasicRenderer.clChar (renderer : BasicRenderer) (memory : Memory) (x y color : Word32) :
    Memory :=
  coverCell x y (fun memory c u => renderer.buffer.putPixel memory c u color) memory

def mCurBitmap : List Byte :=
  [0b11000000, 0b00000000, 0b10100000, 0b00000000, 0b10010000, 0b00000000, 0b10001000, 0b00000000,
   0b10000100, 0b00000000, 0b10000010, 0b00000000, 0b10000001, 0b00000000, 0b10000000, 0b10000000,
   0b10000000, 0b01000000, 0b10000000, 0b00100000, 0b10000000, 0b00010000, 0b10000000, 0b11111000,
   0b10000000, 0b10000000, 0b10001110, 0b10000000, 0b10110010, 0b01000000, 0b11000001, 0b10000000]

/-- The bit of the mouse pointer in column `c` of row `u`. -/
def PointerBit (u c : ℕ) : Prop :=
  (mCurBitmap.getD ((u * 16 + c) / 8) 0 &&& (0b10000000#8 >>> (c % 8))) ≠ 0

instance (u c : ℕ) : Decidable (PointerBit u c) := inferInstanceAs (Decidable (_ ≠ _))

/-- `basicRenderer::drawMouse` -/
def BasicRenderer.drawMouse (renderer : BasicRenderer) (memory : Memory) (x y color : Word32) :
    Memory :=
  forLoop 16 (fun u memory =>
    forLoop 16 (fun c memory =>
      if PointerBit u c then
        BasicRenderer.plotPixel renderer memory (BitVec.ofNat 32 c + x) (BitVec.ofNat 32 u + y)
          color
      else memory) memory) memory

/-! ## Where the calls draw -/

def rectPoints (buffer : Framebuffer) (x1 y1 x2 y2 : Word32) : Set ℕ :=
  {point | ∃ x y, (x1 ≤ x ∧ x ≤ x2) ∧ (y1 ≤ y ∧ y ≤ y2) ∧ point = seen buffer x y}

/-- The number of a pixel in scan lines. -/
def scanPoint (buffer : Framebuffer) (column row : ℕ) : ℕ := column + row * buffer.ppsl.toNat

def cellPoints (buffer : Framebuffer) (x y : Word32) : Set ℕ :=
  {point | ∃ row < 16, ∃ column < 8, point = scanPoint buffer (x.toNat + column) (y.toNat + row)}

def pointerPoints (buffer : Framebuffer) (x y : Word32) : Set ℕ :=
  {point | ∃ u < 16, ∃ c < 16, PointerBit u c ∧
    point = seen buffer (BitVec.ofNat 32 c + x) (BitVec.ofNat 32 u + y)}

/-- The character has a pixel there. -/
def GlyphBit (font : PsfFont) (memory : Memory) (chr : Byte) (column row : ℕ) : Prop :=
  chr ≠ 0 ∧ memory (rowAddress font chr row) &&& (0b10000000#8 >>> column) > 0

instance (font : PsfFont) (memory : Memory) (chr : Byte) (column row : ℕ) :
    Decidable (GlyphBit font memory chr column row) := inferInstanceAs (Decidable (_ ∧ _))

def glyphPoints (buffer : Framebuffer) (font : PsfFont) (memory : Memory) (chr : Byte)
    (x y : Word32) : Set ℕ :=
  {point | ∃ row < 16, ∃ column < 8, GlyphBit font memory chr column row ∧
    point = scanPoint buffer (x.toNat + column) (y.toNat + row)}

/-- Drawing does not change the rows of the glyph. -/
def FontApart (buffer : Framebuffer) (font : PsfFont) (chr : Byte) : Prop :=
  ∀ row < 16, rowAddress font chr row ∉ frame buffer

/-- The addresses of the pixels of the cell do not wrap. -/
structure Near (buffer : Framebuffer) (x y : Word32) : Prop where
  columns : x.toNat + 8 < 2 ^ 32
  rows : y.toNat + 16 < 2 ^ 32
  last : buffer.baseAddr.toNat + 4 * scanPoint buffer (x.toNat + 7) (y.toNat + 15) < 2 ^ 64

variable {renderer : BasicRenderer} {buffer : Framebuffer} {font : PsfFont}
  {memory memory' : Memory} {chr : Byte} {x y x1 y1 x2 y2 color : Word32} {row column : ℕ}

/-! ## Pixels and rectangles -/

theorem plotPixel_paints (hdisplay : Display renderer.buffer) (memory : Memory)
    (x y color : Word32) :
    (frameCanvas renderer.buffer).Paints (ink {seen renderer.buffer x y} color) memory
      (BasicRenderer.plotPixel renderer memory x y color) := by
  have hlow := hdisplay.low
  have hseen : seen renderer.buffer x y < 2 ^ 30 := Nat.mod_lt _ (by decide)
  rw [BasicRenderer.plotPixel, check_eq, BitVec.add_comm]
  exact checked_paints hdisplay (by omega) memory color

theorem toNat_add_ofNat_le {first last : Word32} {index : ℕ}
    (hindex : index < last.toNat + 1 - first.toNat) :
    (first + BitVec.ofNat 32 index).toNat = first.toNat + index := by
  have hlast := last.isLt
  rw [BitVec.toNat_add, BitVec.toNat_ofNat]
  omega

/-- The counters of a loop. -/
theorem exists_counter_iff {first last : Word32} {P : Word32 → Prop} :
    (∃ index < last.toNat + 1 - first.toNat, P (first + BitVec.ofNat 32 index)) ↔
      ∃ counter, (first ≤ counter ∧ counter ≤ last) ∧ P counter := by
  constructor
  · rintro ⟨index, hindex, hholds⟩
    have hcounter := toNat_add_ofNat_le hindex
    refine ⟨_, ⟨?_, ?_⟩, hholds⟩ <;> rw [BitVec.le_def, hcounter] <;> omega
  · rintro ⟨counter, ⟨hfirst, hlast⟩, hholds⟩
    rw [BitVec.le_def] at hfirst hlast
    have hcounter : first + BitVec.ofNat 32 (counter.toNat - first.toNat) = counter := by
      apply BitVec.eq_of_toNat_eq
      rw [toNat_add_ofNat_le (show _ < last.toNat + 1 - first.toNat by omega)]
      omega
    exact ⟨counter.toNat - first.toNat, by omega, by rwa [hcounter]⟩

/-- A rectangle that ends. -/
theorem rect_eq_forLoop (hx : x2.toNat + 1 < 2 ^ 32) (hy : y2.toNat + 1 < 2 ^ 32)
    (memory : Memory) :
    BasicRenderer.rect renderer memory x1 y1 x2 y2 color =
      some (forLoop (x2.toNat + 1 - x1.toNat) (fun i memory =>
        forLoop (y2.toNat + 1 - y1.toNat) (fun j memory =>
          BasicRenderer.plotPixel renderer memory (x1 + BitVec.ofNat 32 i)
            (y1 + BitVec.ofNat 32 j) color) memory) memory) :=
  throughFor_eq_forLoop hx (fun _ _ _ => throughFor_eq_forLoop hy (fun _ _ _ => rfl) _ _) _ _

/-- `rect` ends unless one of its loops runs up to the last `unsigned int`. -/
theorem rect_eq_none_iff :
    BasicRenderer.rect renderer memory x1 y1 x2 y2 color = none ↔
      x2.toNat + 1 = 2 ^ 32 ∨ x1 ≤ x2 ∧ y2.toNat + 1 = 2 ^ 32 := by
  have hx := x2.isLt
  have hy := y2.isLt
  by_cases hlast : x2.toNat + 1 = 2 ^ 32
  · exact iff_of_true (throughFor_eq_none hlast _ _ _) (Or.inl hlast)
  by_cases hrow : y2.toNat + 1 = 2 ^ 32
  · by_cases hfirst : x1 ≤ x2
    · exact iff_of_true
        (throughFor_eq_none_of_body hfirst (throughFor_eq_none hrow _ _ _))
        (Or.inr ⟨hfirst, hrow⟩)
    · rw [BasicRenderer.rect, throughFor_of_lt (BitVec.not_le.mp hfirst)]
      exact iff_of_false (by simp) (by tauto)
  · rw [rect_eq_forLoop (by omega) (by omega)]
    exact iff_of_false (by simp) (by tauto)

theorem rect_paints (hdisplay : Display renderer.buffer)
    (hrect : BasicRenderer.rect renderer memory x1 y1 x2 y2 color = some memory') :
    (frameCanvas renderer.buffer).Paints (ink (rectPoints renderer.buffer x1 y1 x2 y2) color)
      memory memory' := by
  have hx := x2.isLt
  have hy := y2.isLt
  have hends := mt rect_eq_none_iff.mpr (Option.ne_none_iff_exists'.mpr ⟨memory', hrect⟩)
  push Not at hends
  by_cases hfirst : x1 ≤ x2
  · have hrow := hends.2 hfirst
    rw [rect_eq_forLoop (by omega) (by omega), Option.some.injEq] at hrect
    rw [← hrect]
    refine forLoop_paints (fun point => ?_) fun i _ current _ => forLoop_paints
      (fun point => (exists_counter_iff (P := fun y =>
        point = seen renderer.buffer (x1 + BitVec.ofNat 32 i) y)).symm)
      fun j _ now _ => plotPixel_paints hdisplay now _ _ color
    refine Iff.trans ?_ (exists_counter_iff (P := fun x =>
      ∃ y, (y1 ≤ y ∧ y ≤ y2) ∧ point = seen renderer.buffer x y)).symm
    simp only [rectPoints, Set.mem_ofPred_eq, exists_and_left]
  · rw [BasicRenderer.rect, throughFor_of_lt (BitVec.not_le.mp hfirst), Option.some.injEq] at hrect
    rw [← hrect]
    refine (Canvas.Paints.refl _ memory).congr fun point _ => ink_of_not_mem ?_
    rintro ⟨x, y, ⟨hleft, hright⟩, -⟩
    exact hfirst (BitVec.le_trans hleft hright)

theorem fill_paints (hdisplay : Display renderer.buffer)
    (hfill : BasicRenderer.fill renderer memory color = some memory') :
    (frameCanvas renderer.buffer).Paints (ink (rectPoints renderer.buffer 0 0
      (renderer.buffer.width - 1) (renderer.buffer.height - 1)) color) memory memory' :=
  rect_paints hdisplay hfill

/-! ## Cells and glyphs -/

/-- A pixel put by its number in scan lines. -/
theorem putPixel_paints (hdisplay : Display buffer) (hnear : Near buffer x y) (hrow : row < 16)
    (hcolumn : column < 8) (memory : Memory) (color : Word32) :
    (frameCanvas buffer).Paints
      (ink {scanPoint buffer (x.toNat + column) (y.toNat + row)} color) memory
      (buffer.putPixel memory (x.setWidth 64 + BitVec.ofNat 64 column)
        (y.setWidth 64 + BitVec.ofNat 64 row) color) := by
  have hoffset : pixelOffset buffer.ppsl.toNat (x.toNat + column) (y.toNat + row) =
      4 * scanPoint buffer (x.toNat + column) (y.toNat + row) := (Nat.mul_add 4 _ _).symm
  have hlast := hnear.last
  have hlines : (y.toNat + row) * buffer.ppsl.toNat ≤ (y.toNat + 15) * buffer.ppsl.toNat :=
    Nat.mul_le_mul_right _ (by omega)
  have hput : putAt buffer buffer.ppsl.toNat memory (x.toNat + column) (y.toNat + row) color =
      if pixelAt buffer (scanPoint buffer (x.toNat + column) (y.toNat + row)) <
          buffer.baseAddr + buffer.size then
        store32 memory
          (pixelAt buffer (scanPoint buffer (x.toNat + column) (y.toNat + row))) color
      else memory := by
    rw [putAt, pixelAt, ← hoffset]
    rfl
  rw [putPixel_eq_putAt, hput]
  refine checked_paints hdisplay ?_ memory color
  unfold scanPoint at hlast ⊢
  omega

/-- The number of passes of a loop over a cell. -/
theorem Near.passes (hnear : Near buffer x y) :
    (y + 16).toNat - y.toNat = 16 ∧ (x + 8).toNat - x.toNat = 8 := by
  have hcolumns := hnear.columns
  have hrows := hnear.rows
  constructor <;> bv_omega

variable {put : Memory → Word64 → Word64 → Memory} {place : ℕ → ℕ → ℕ}

theorem coverCell_paints (hnear : Near buffer x y)
    (hput : ∀ current, ∀ row < 16, ∀ column < 8, (frameCanvas buffer).Paints
      (ink {place row column} color) current
      (put current (x.setWidth 64 + BitVec.ofNat 64 column)
        (y.setWidth 64 + BitVec.ofNat 64 row))) (memory : Memory) :
    (frameCanvas buffer).Paints
      (ink {point | ∃ row < 16, ∃ column < 8, point = place row column} color) memory
      (coverCell x y put memory) := by
  obtain ⟨hrows, hcolumns⟩ := hnear.passes
  rw [coverCell, hrows, hcolumns]
  exact forLoop_paints (fun _ => Iff.rfl) fun row hrow _ _ =>
    forLoop_paints (fun _ => Iff.rfl) fun column hcolumn current _ =>
      hput current row hrow column hcolumn

theorem drawGlyph_paints (hnear : Near buffer x y) (hapart : FontApart buffer font chr)
    (hput : ∀ current, ∀ row < 16, ∀ column < 8, (frameCanvas buffer).Paints
      (ink {place row column} color) current
      (put current (x.setWidth 64 + BitVec.ofNat 64 column)
        (y.setWidth 64 + BitVec.ofNat 64 row))) (memory : Memory) :
    (frameCanvas buffer).Paints
      (ink {point | ∃ row < 16, ∃ column < 8, GlyphBit font memory chr column row ∧
        point = place row column} color) memory (drawGlyph font chr x y put memory) := by
  obtain ⟨hrows, hcolumns⟩ := hnear.passes
  rw [drawGlyph]
  split_ifs with hzero
  · refine (Canvas.Paints.refl _ memory).congr fun point _ => ink_of_not_mem ?_
    rintro ⟨row, -, column, -, ⟨hchr, -⟩, -⟩
    exact hchr hzero
  · dsimp only
    rw [hrows, hcolumns]
    refine forLoop_paints (fun _ => Iff.rfl) fun row hrow before hbefore =>
      forLoop_paints (fun _ => Iff.rfl) fun column hcolumn current hcurrent => ?_
    -- the rows of the glyph are read from the memory as drawn so far
    have hkept : current (rowAddress font chr row) = memory (rowAddress font chr row) :=
      (frameCanvas buffer).rest.trans hbefore hcurrent _ (hapart row hrow)
    have hbit : (current (rowAddress font chr row) &&& (0b10000000#8 >>> column) > 0) ↔
        GlyphBit font memory chr column row := by
      rw [hkept, GlyphBit, and_iff_right hzero]
    simp only [← hbit]
    exact ite_paints (hput current row hrow column hcolumn)

theorem delChar_paints (hdisplay : Display renderer.buffer) (hnear : Near renderer.buffer x y)
    (memory : Memory) (color : Word32) :
    (frameCanvas renderer.buffer).Paints (ink (cellPoints renderer.buffer x y) color) memory
      (BasicRenderer.delChar renderer memory x y color) :=
  coverCell_paints hnear (fun current _ hrow _ hcolumn =>
    putPixel_paints hdisplay hnear hrow hcolumn current color) memory

theorem printCharAt_paints (hdisplay : Display renderer.buffer) (hnear : Near renderer.buffer x y)
    (hapart : FontApart renderer.buffer renderer.font chr) (memory : Memory) (color : Word32) :
    (frameCanvas renderer.buffer).Paints
      (ink (glyphPoints renderer.buffer renderer.font memory chr x y) color) memory
      (renderer.printCharAt memory chr x y color) := by
  rw [printCharAt_eq_drawGlyph]
  exact drawGlyph_paints hnear hapart (fun current _ hrow _ hcolumn =>
    putPixel_paints hdisplay hnear hrow hcolumn current color) memory

theorem drawMouse_paints (hdisplay : Display renderer.buffer) (memory : Memory)
    (x y color : Word32) :
    (frameCanvas renderer.buffer).Paints (ink (pointerPoints renderer.buffer x y) color) memory
      (BasicRenderer.drawMouse renderer memory x y color) :=
  forLoop_paints (fun _ => Iff.rfl) fun _ _ _ _ =>
    forLoop_paints (fun _ => Iff.rfl) fun _ _ current _ =>
      ite_paints (plotPixel_paints hdisplay current _ _ color)

/-- A font whose glyphs, also those of negative characters, lie behind the frame buffer. -/
theorem fontApart_of_behind
    (hbehind : buffer.baseAddr.toNat + buffer.size.toNat + 2 ^ 15 ≤ font.buffer.toNat)
    (hend : font.buffer.toNat + 2 ^ 16 ≤ 2 ^ 64) (chr : Byte) : FontApart buffer font chr := by
  intro row hrow hmem
  have hcharsize := font.charsize.isLt
  have hmem : offset buffer.baseAddr (rowAddress font chr row) < buffer.size.toNat := hmem
  have hbound := offset_lt font.buffer (rowAddress font chr row)
  have hplace : (rowAddress font chr row).toNat =
      (font.buffer.toNat + offset font.buffer (rowAddress font chr row)) % 2 ^ 64 := by
    conv_lhs => rw [← add_offset font.buffer (rowAddress font chr row)]
    rw [BitVec.toNat_add, BitVec.toNat_ofNat]
    omega
  have hframe : offset buffer.baseAddr (rowAddress font chr row) =
      (2 ^ 64 - buffer.baseAddr.toNat + (rowAddress font chr row).toNat) % 2 ^ 64 :=
    BitVec.toNat_sub _ _
  by_cases hlow : chr.toNat < 128
  · have hoffset := offset_rowAddress_of_lt font hlow hrow
    have hproduct : chr.toNat * font.charsize.toNat ≤ 127 * 255 :=
      Nat.mul_le_mul (by omega) (by omega)
    omega
  · have hchr := chr.isLt
    have hhigh : 128 ≤ chr.toNat := by omega
    have hbelow := offset_lt font.buffer (rowAddress font chr 0)
    have hrows : offset font.buffer (rowAddress font chr row) =
        (offset font.buffer (rowAddress font chr 0) + row) % 2 ^ 64 := by
      rw [offset_rowAddress _ _ (by omega), offset_rowAddress _ _ (by decide)]
      omega
    have hfirst : offset font.buffer (rowAddress font chr 0) = 0 ∨
        2 ^ 64 - 2 ^ 15 ≤ offset font.buffer (rowAddress font chr 0) := by
      rcases Nat.eq_zero_or_pos font.charsize.toNat with hzero | hpos
      · left
        have hnone : font.charsize = 0 := BitVec.eq_of_toNat_eq hzero
        rw [offset_rowAddress _ _ (by decide), hnone]
        simp
      · right
        have hglyphs := offset_rowAddress_of_ge font hhigh hpos
        have hproduct : 128 * font.charsize.toNat ≤ chr.toNat * font.charsize.toNat :=
          Nat.mul_le_mul_right _ (by omega)
        omega
    omega

/-! ## Erasing -/

/-- Whatever the memory of the font holds, a glyph changes its cell only. -/
theorem drawGlyph_within {points : Set ℕ} (hnear : Near buffer x y)
    (hput : ∀ current, ∀ row < 16, ∀ column < 8, (frameCanvas buffer).Within points current
      (put current (x.setWidth 64 + BitVec.ofNat 64 column)
        (y.setWidth 64 + BitVec.ofNat 64 row))) (memory : Memory) :
    (frameCanvas buffer).Within points memory (drawGlyph font chr x y put memory) := by
  obtain ⟨hrows, hcolumns⟩ := hnear.passes
  rw [drawGlyph]
  split_ifs
  · exact Canvas.Within.refl _ points memory
  · dsimp only
    rw [hrows, hcolumns]
    refine forLoop_within fun row hrow _ => forLoop_within fun column hcolumn current => ?_
    split_ifs
    · exact hput current row hrow column hcolumn
    · exact Canvas.Within.refl _ points current

theorem printCharAt_within (hdisplay : Display renderer.buffer)
    (hnear : Near renderer.buffer x y) (memory : Memory) (chr : Byte) (color : Word32) :
    (frameCanvas renderer.buffer).Within (cellPoints renderer.buffer x y) memory
      (renderer.printCharAt memory chr x y color) := by
  rw [printCharAt_eq_drawGlyph]
  refine drawGlyph_within hnear (fun current row hrow column hcolumn => ?_) memory
  refine (putPixel_paints hdisplay hnear hrow hcolumn current color).within fun point hpoint => ?_
  rw [mem_support_ink] at hpoint
  exact ⟨row, hrow, column, hcolumn, hpoint⟩

/-- Nothing of a character is left in a cell that is erased after it. -/
theorem delChar_printCharAt (hdisplay : Display renderer.buffer)
    (hnear : Near renderer.buffer x y) (memory : Memory) (color background : Word32) :
    BasicRenderer.delChar renderer (renderer.printCharAt memory chr x y color) x y background =
      BasicRenderer.delChar renderer memory x y background := by
  have hprinted := printCharAt_within hdisplay hnear memory chr color
  refine (delChar_paints hdisplay hnear memory background).forgets
    (delChar_paints hdisplay hnear _ background) hprinted.rest fun point hpoint hother => ?_
  rw [mem_support_ink] at hother
  exact hprinted.shown point hpoint hother

/-- A character on a plain cell is undone by erasing it with the colour of the cell. -/
theorem delChar_printCharAt_plain (hdisplay : Display renderer.buffer)
    (hnear : Near renderer.buffer x y) {background : Word32}
    (hplain : ∀ point ∈ cellPoints renderer.buffer x y, 4 * point < renderer.buffer.size.toNat →
      picture renderer.buffer memory point = background) (color : Word32) :
    BasicRenderer.delChar renderer (renderer.printCharAt memory chr x y color) x y background =
      memory := by
  rw [delChar_printCharAt hdisplay hnear]
  refine (delChar_paints hdisplay hnear memory background).eq_self fun point hpoint => ?_
  by_cases hcell : point ∈ cellPoints renderer.buffer x y
  · rw [ink_over_of_mem hcell]
    exact (hplain point hcell hpoint).symm
  · exact ink_over_of_not_mem hcell

/-- A character in the first cell of a black screen of two cells. -/
theorem delChar_printCharAt_cell :
    let renderer : BasicRenderer := ⟨⟨0x80000000, 1024, 16, 16, 16⟩, ⟨16, 0x90000000⟩⟩
    BasicRenderer.delChar renderer
      (renderer.printCharAt (fun _ => 0) 0x41 0 0 0xFFFFFFFF) 0 0 0 = fun _ => 0 := by
  intro renderer
  exact delChar_printCharAt_plain ⟨by decide, by decide, by decide⟩
    ⟨by decide, by decide, by decide⟩ (fun _ _ _ => by simp [picture, load32]) 0xFFFFFFFF

end RedX.Drawing
