import RedX.Core.ByteMemory
import RedX.Core.CountedLoop

/-!
# `class basicRenderer`

Text output of `basicRenderer.cpp`: the cursor, the glyph loop and `print`.
The pixel address and its bound are computed with 64-bit pointers, so a glyph
loop can only change bytes of pixels that pass the comparison with
`BaseAddr + Size`; `print_agreeOutside` is that frame.
-/

namespace RedX.TextRenderer

open RedX.MachineWord
open RedX.ByteMemory
open RedX.CountedLoop

structure Framebuffer where
  baseAddr : Word64
  size : Word64
  width : Word32
  height : Word32
  ppsl : Word32

/-- `PSF_FONT`, with the `charsize` of its header. -/
structure PsfFont where
  charsize : Byte
  buffer : Word64

structure Cursor where
  x : Word32
  y : Word32
  xm : Word32
  ym : Word32

def Cursor.down (cur : Cursor) : Cursor :=
  if cur.y ≠ cur.ym then { cur with y := cur.y + 1 } else cur

def Cursor.right (cur : Cursor) : Cursor :=
  if cur.x ≠ cur.xm then { cur with x := cur.x + 1 } else { cur.down with x := 0 }

def Cursor.newLine (cur : Cursor) : Cursor :=
  if cur.y ≤ cur.ym then ({ cur with x := 0 } : Cursor).down else cur

/-- `cursor::move`, with unsigned arguments. -/
def Cursor.move (cur : Cursor) (x y : Word32) : Cursor :=
  let cur := if cur.x + x ≤ cur.xm ∧ cur.x + x ≥ 0 then { cur with x := cur.x + x } else cur
  if cur.y + y ≤ cur.ym ∧ cur.y + y ≥ 0 then { cur with y := cur.y + y } else cur

structure BasicRenderer where
  buffer : Framebuffer
  font : PsfFont

/-- `c * 4 + (u * buffer->ppsl * 4) + (char*)buffer->BaseAddr` -/
def Framebuffer.pixelAddress (buffer : Framebuffer) (c u : Word64) : Word64 :=
  c * 4 + u * buffer.ppsl.setWidth 64 * 4 + buffer.baseAddr

def Framebuffer.putPixel (buffer : Framebuffer) (memory : Memory) (c u : Word64)
    (color : Word32) : Memory :=
  if buffer.pixelAddress c u < buffer.baseAddr + buffer.size then
    store32 memory (buffer.pixelAddress c u) color
  else memory

/-- `basicRenderer::printChar` at a pixel position.  The loop bounds `y + 16` and
`x + 8` wrap at 32 bits, so a glyph at the very end of the range has no rows. -/
def BasicRenderer.printCharAt (renderer : BasicRenderer) (memory : Memory) (chr : Byte)
    (x y color : Word32) : Memory :=
  if chr = 0x00 then memory
  else
    let glyph := (chr.signExtend 32 * renderer.font.charsize.setWidth 32).signExtend 64
    let fontPtr := renderer.font.buffer + glyph
    forLoop ((y + 16).toNat - y.toNat) (fun row memory =>
      forLoop ((x + 8).toNat - x.toNat) (fun column memory =>
        if memory (fontPtr + BitVec.ofNat 64 row) &&& (0b10000000#8 >>> column) > 0 then
          renderer.buffer.putPixel memory (x.setWidth 64 + BitVec.ofNat 64 column)
            (y.setWidth 64 + BitVec.ofNat 64 row) color
        else memory) memory) memory

/-- What text output works on: the cursor and the memory. -/
abbrev Page := Cursor × Memory

/-- `if (cur.x > cur.xm) cur.newLine()` -/
def Cursor.wrap (cur : Cursor) : Cursor := if cur.x > cur.xm then cur.newLine else cur

/-- `basicRenderer::printChar` at the cursor. -/
def BasicRenderer.printChar (renderer : BasicRenderer) (color : Word32) (page : Page)
    (chr : Byte) : Page :=
  let cur := page.1.wrap
  (cur.right, renderer.printCharAt page.2 chr (cur.x * 8) (cur.y * 16) color)

/-- `basicRenderer::printString`; a string is the list of its characters before the
zero. -/
def BasicRenderer.printString (renderer : BasicRenderer) (color : Word32) (str : List Byte)
    (page : Page) : Page :=
  str.foldl (fun page chr => renderer.printChar color (page.1.wrap, page.2) chr) page

/-- `basicRenderer::print`: a new line if the row is too short, then the loop of
`printString`. -/
def BasicRenderer.print (renderer : BasicRenderer) (color : Word32) (str : List Byte)
    (page : Page) : Page :=
  let length : Byte := BitVec.ofNat 8 str.length
  let start := if page.1.xm - page.1.x < length.setWidth 32 then page.1.newLine else page.1
  renderer.printString color str (start, page.2)

/-! ## The bytes that text output can change -/

/-- The bytes of the pixels that pass the bounds check. -/
def Framebuffer.pixels (buffer : Framebuffer) : Set Word64 :=
  {address | ∃ c u, buffer.pixelAddress c u < buffer.baseAddr + buffer.size ∧
    offset (buffer.pixelAddress c u) address < 4}

/-- A frame buffer of size 0 at address 0 has no pixels. -/
theorem pixels_eq_empty {buffer : Framebuffer} (hnone : buffer.baseAddr + buffer.size = 0) :
    buffer.pixels = ∅ := by
  ext address
  simp [Framebuffer.pixels, hnone]

theorem putPixel_agreeOutside (buffer : Framebuffer) (memory : Memory) (c u : Word64)
    (color : Word32) :
    AgreeOutside buffer.pixels memory (buffer.putPixel memory c u color) := by
  unfold Framebuffer.putPixel
  split_ifs with hbound
  · exact agreeOutside_store memory _ fun address hoffset => ⟨c, u, hbound, hoffset⟩
  · exact AgreeOutside.refl _ _

variable (renderer : BasicRenderer)

theorem printCharAt_agreeOutside (memory : Memory) (chr : Byte) (x y color : Word32) :
    AgreeOutside renderer.buffer.pixels memory (renderer.printCharAt memory chr x y color) := by
  unfold BasicRenderer.printCharAt
  split_ifs with hzero
  · exact AgreeOutside.refl _ _
  · apply forLoop_invariant (fun _ => AgreeOutside renderer.buffer.pixels memory)
    · exact AgreeOutside.refl _ _
    · intro row _ atRow hrow
      apply forLoop_invariant (fun _ => AgreeOutside renderer.buffer.pixels memory)
      · exact hrow
      · intro column _ atColumn hcolumn
        change AgreeOutside _ _ (if _ then _ else _)
        split_ifs
        · exact hcolumn.trans (putPixel_agreeOutside _ _ _ _ _)
        · exact hcolumn

theorem printString_agreeOutside (color : Word32) (str : List Byte) (page : Page) :
    AgreeOutside renderer.buffer.pixels page.2 (renderer.printString color str page).2 := by
  induction str generalizing page with
  | nil => exact AgreeOutside.refl _ _
  | cons chr str ih =>
      exact (printCharAt_agreeOutside renderer page.2 chr _ _ color).trans (ih _)

theorem print_agreeOutside (color : Word32) (str : List Byte) (page : Page) :
    AgreeOutside renderer.buffer.pixels page.2 (renderer.print color str page).2 :=
  printString_agreeOutside renderer color str _

end RedX.TextRenderer
