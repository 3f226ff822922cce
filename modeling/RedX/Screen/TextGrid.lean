import RedX.Core.AccessLog
import RedX.Screen.TextCursor

/-!
# Text on the grid

The calls of the cursor and of text output, with a log of what is drawn.  What drawing a
character logs is a parameter: here it is the pixels of its cell.
-/

namespace RedX.TextGrid

open RedX.MachineWord
open RedX.ByteMemory
open RedX.AccessLog
open RedX.TextRenderer
open RedX.TextCursor

/-- Draws a character at the cursor. -/
abbrev Draw (ι : Type) := Memory → Byte → Cursor → Logged ι Memory

variable {ι : Type}

/-- What `printChar` and `putChar` share; `next` is where the cursor goes. -/
def putLogged (next : Cursor → Cursor) (draw : Draw ι) (page : Page) (chr : Byte) :
    Logged ι Page := do
  let cur := page.1.wrap
  let memory ← draw page.2 chr cur
  return (next cur, memory)

/-- `basicRenderer::printChar` at the cursor. -/
def printCharLogged (draw : Draw ι) (page : Page) (chr : Byte) : Logged ι Page :=
  putLogged Cursor.right draw page chr

/-- `basicRenderer::putChar`: the cursor does not advance. -/
def putCharLogged (draw : Draw ι) (page : Page) (chr : Byte) : Logged ι Page :=
  putLogged id draw page chr

def printStringLogged (draw : Draw ι) (str : List Byte) (page : Page) : Logged ι Page :=
  str.foldlM (fun page chr => printCharLogged draw (page.1.wrap, page.2) chr) page

def printLogged (draw : Draw ι) (str : List Byte) (page : Page) : Logged ι Page :=
  let length : Byte := BitVec.ofNat 8 str.length
  let start := if page.1.xm - page.1.x < length.setWidth 32 then page.1.newLine else page.1
  printStringLogged draw str (start, page.2)

def BasicRenderer.putChar (renderer : BasicRenderer) (color : Word32) (page : Page)
    (chr : Byte) : Page :=
  let cur := page.1.wrap
  (cur, renderer.printCharAt page.2 chr (cur.x * 8) (cur.y * 16) color)

/-- A call of the cursor or of text output. -/
inductive TextCall
  | reset
  | newLine
  | back
  | up
  | down
  | left
  | right
  | move (x y : Word32)
  | printChar (chr : Byte) (color : Word32)
  | putChar (chr : Byte) (color : Word32)
  | printString (str : List Byte) (color : Word32)
  | print (str : List Byte) (color : Word32)

def BasicRenderer.perform (renderer : BasicRenderer) (page : Page) : TextCall → Page
  | .reset => (Cursor.reset page.1, page.2)
  | .newLine => (page.1.newLine, page.2)
  | .back => (Cursor.back page.1, page.2)
  | .up => (Cursor.up page.1, page.2)
  | .down => (page.1.down, page.2)
  | .left => (Cursor.left page.1, page.2)
  | .right => (page.1.right, page.2)
  | .move x y => (page.1.move x y, page.2)
  | .printChar chr color => renderer.printChar color page chr
  | .putChar chr color => BasicRenderer.putChar renderer color page chr
  | .printString str color => renderer.printString color str page
  | .print str color => renderer.print color str page

/-- A call with what it draws logged. -/
def performLogged (renderer : BasicRenderer) (draw : Word32 → Draw ι) (page : Page) :
    TextCall → Logged ι Page
  | .printChar chr color => printCharLogged (draw color) page chr
  | .putChar chr color => putCharLogged (draw color) page chr
  | .printString str color => printStringLogged (draw color) str page
  | .print str color => printLogged (draw color) str page
  | call => pure (BasicRenderer.perform renderer page call)

/-- A pixel that the glyph loop goes over, set or not. -/
abbrev Pixel := Word64 × Word64

/-- `basicRenderer::printChar` at a pixel position with the pixels it goes over. -/
def printCharAtLogged (renderer : BasicRenderer) (memory : Memory) (chr : Byte)
    (x y color : Word32) : Logged Pixel Memory :=
  if chr = 0x00 then pure memory
  else
    let glyph := (chr.signExtend 32 * renderer.font.charsize.setWidth 32).signExtend 64
    let fontPtr := renderer.font.buffer + glyph
    forLogged ((y + 16).toNat - y.toNat) (fun row memory =>
      forLogged ((x + 8).toNat - x.toNat) (fun column memory =>
        let c := x.setWidth 64 + BitVec.ofNat 64 column
        let u := y.setWidth 64 + BitVec.ofNat 64 row
        access (c, u)
          (if memory (fontPtr + BitVec.ofNat 64 row) &&& (0b10000000#8 >>> column) > 0 then
            renderer.buffer.putPixel memory c u color
          else memory)) memory) memory

/-- The pixels of a character at the cursor. -/
def drawCell (renderer : BasicRenderer) (color : Word32) : Draw Pixel :=
  fun memory chr cur => printCharAtLogged renderer memory chr (cur.x * 8) (cur.y * 16) color

/-- The cursor of `_start`, where `roundd` of a whole number is that number. -/
def start (buffer : Framebuffer) : Cursor := ⟨0, 0, buffer.ppsl / 8 - 1, buffer.height / 16 - 1⟩

/-- Calls one after the other, from `_start` on. -/
def session (renderer : BasicRenderer) (memory : Memory) (calls : List TextCall) :
    Logged Pixel Page :=
  calls.foldlM (performLogged renderer (drawCell renderer)) (start renderer.buffer, memory)

def OnScreen (buffer : Framebuffer) (pixel : Pixel) : Prop :=
  pixel.1.toNat < buffer.ppsl.toNat ∧ pixel.2.toNat < buffer.height.toNat

variable {renderer : BasicRenderer} {draw : Draw ι} {color : Word32} {page : Page}
  {buffer : Framebuffer} {cur : Cursor} {P : ι → Prop}

/-! ## The results -/

/-- The log apart, `draw` draws the glyph. -/
def Draws (renderer : BasicRenderer) (color : Word32) (draw : Draw ι) : Prop :=
  ∀ memory chr cur, (draw memory chr cur).result =
    some (renderer.printCharAt memory chr (cur.x * 8) (cur.y * 16) color)

theorem putLogged_result (next : Cursor → Cursor) (hdraws : Draws renderer color draw)
    (page : Page) (chr : Byte) :
    (putLogged next draw page chr).result = some (next page.1.wrap,
      renderer.printCharAt page.2 chr (page.1.wrap.x * 8) (page.1.wrap.y * 16) color) := by
  rw [putLogged, result_bind, hdraws, Option.bind_some]
  rfl

theorem printCharLogged_result (hdraws : Draws renderer color draw) (page : Page) (chr : Byte) :
    (printCharLogged draw page chr).result = some (renderer.printChar color page chr) :=
  putLogged_result Cursor.right hdraws page chr

theorem putCharLogged_result (hdraws : Draws renderer color draw) (page : Page) (chr : Byte) :
    (putCharLogged draw page chr).result =
      some (BasicRenderer.putChar renderer color page chr) :=
  putLogged_result id hdraws page chr

theorem printStringLogged_result (hdraws : Draws renderer color draw) (str : List Byte)
    (page : Page) :
    (printStringLogged draw str page).result = some (renderer.printString color str page) :=
  foldlM_result (fun _ _ => printCharLogged_result hdraws _ _) page str

theorem printLogged_result (hdraws : Draws renderer color draw) (str : List Byte) (page : Page) :
    (printLogged draw str page).result = some (renderer.print color str page) :=
  printStringLogged_result hdraws str _

theorem performLogged_result {draw : Word32 → Draw ι}
    (hdraws : ∀ color, Draws renderer color (draw color)) (page : Page) (call : TextCall) :
    (performLogged renderer draw page call).result =
      some (BasicRenderer.perform renderer page call) := by
  cases call with
  | printChar chr color => exact printCharLogged_result (hdraws color) page chr
  | putChar chr color => exact putCharLogged_result (hdraws color) page chr
  | printString str color => exact printStringLogged_result (hdraws color) str page
  | print str color => exact printLogged_result (hdraws color) str page
  | _ => rfl

theorem drawCell_draws (renderer : BasicRenderer) (color : Word32) :
    Draws renderer color (drawCell renderer color) := by
  intro memory chr cur
  rw [drawCell, printCharAtLogged, BasicRenderer.printCharAt]
  split_ifs
  · rfl
  · exact forLogged_result (fun row memory =>
      forLogged_result (fun column memory => rfl) memory) memory

/-- The log apart, a session is the calls of text output one after the other. -/
theorem session_result (renderer : BasicRenderer) (memory : Memory) (calls : List TextCall) :
    (session renderer memory calls).result =
      some (calls.foldl (BasicRenderer.perform renderer) (start renderer.buffer, memory)) :=
  foldlM_result (performLogged_result (drawCell_draws renderer)) _ calls

/-! ## The grid of the screen -/

/-- The cursor is on the grid of whole cells of the screen. -/
structure Fits (buffer : Framebuffer) (cur : Cursor) : Prop where
  onGrid : OnGrid cur
  xm : cur.xm = buffer.ppsl / 8 - 1
  ym : cur.ym = buffer.height / 16 - 1

theorem fits_start (buffer : Framebuffer) : Fits buffer (start buffer) :=
  ⟨⟨zero_le _, zero_le _⟩, rfl, rfl⟩

theorem Fits.stays {cur' : Cursor} (hfits : Fits buffer cur) (hstays : Stays cur cur') :
    Fits buffer cur' :=
  ⟨hstays.onGrid hfits.onGrid, hstays.xm.trans hfits.xm, hstays.ym.trans hfits.ym⟩

/-- A cell of the grid ends on the screen. -/
theorem cell_le {place limit extent size : Word32} (hplace : place ≤ limit)
    (hlimit : limit = extent / size - 1) (hsize : 0 < size.toNat)
    (hextent : size.toNat ≤ extent.toNat) :
    (place.toNat + 1) * size.toNat ≤ extent.toNat := by
  have hcells : 0 < extent.toNat / size.toNat := Nat.div_pos hextent hsize
  have hlast : limit.toNat = extent.toNat / size.toNat - 1 := by
    rw [hlimit, BitVec.toNat_sub_of_le, BitVec.toNat_udiv]
    · rfl
    · rw [BitVec.le_def, BitVec.toNat_udiv]
      exact hcells
  rw [BitVec.le_def] at hplace
  calc (place.toNat + 1) * size.toNat
      ≤ extent.toNat / size.toNat * size.toNat := Nat.mul_le_mul_right _ (by omega)
    _ ≤ extent.toNat := Nat.div_mul_le_self _ _

/-- The log of a cell. -/
theorem printCharAtLogged_all {P : Pixel → Prop} (memory : Memory) (chr : Byte) (x y : Word32)
    (hpixel : ∀ row < (y + 16).toNat - y.toNat, ∀ column < (x + 8).toNat - x.toNat,
      P (x.setWidth 64 + BitVec.ofNat 64 column, y.setWidth 64 + BitVec.ofNat 64 row)) :
    (printCharAtLogged renderer memory chr x y color).All P := by
  rw [printCharAtLogged]
  split_ifs
  · exact all_pure memory
  · exact forLogged_all (fun row hrow _ => forLogged_all (fun column hcolumn _ =>
      (all_access _ _).mpr (hpixel row hrow column hcolumn)) _) memory

/-- The pixels of a cell of the grid are on the screen. -/
theorem drawCell_onScreen (hppsl : 8 ≤ renderer.buffer.ppsl.toNat)
    (hheight : 16 ≤ renderer.buffer.height.toNat) (memory : Memory) (chr : Byte)
    (hfits : Fits renderer.buffer cur) :
    (drawCell renderer color memory chr cur).All (OnScreen renderer.buffer) := by
  have hcolumns : (cur.x.toNat + 1) * 8 ≤ renderer.buffer.ppsl.toNat :=
    cell_le hfits.onGrid.x hfits.xm (by decide) hppsl
  have hrows : (cur.y.toNat + 1) * 16 ≤ renderer.buffer.height.toNat :=
    cell_le hfits.onGrid.y hfits.ym (by decide) hheight
  have hppsl_lt := renderer.buffer.ppsl.isLt
  have hheight_lt := renderer.buffer.height.isLt
  have hx : (cur.x * 8).toNat = cur.x.toNat * 8 :=
    BitVec.toNat_mul_of_lt (show cur.x.toNat * 8 < 2 ^ 32 by omega)
  have hy : (cur.y * 16).toNat = cur.y.toNat * 16 :=
    BitVec.toNat_mul_of_lt (show cur.y.toNat * 16 < 2 ^ 32 by omega)
  refine printCharAtLogged_all memory chr _ _ fun row hrow column hcolumn => ⟨?_, ?_⟩
  · change ((cur.x * 8).setWidth 64 + BitVec.ofNat 64 column).toNat < _
    bv_omega
  · change ((cur.y * 16).setWidth 64 + BitVec.ofNat 64 row).toNat < _
    bv_omega

/-- The places that `draw` logs at a cursor on the grid of the screen. -/
def Within (buffer : Framebuffer) (P : ι → Prop) (draw : Draw ι) : Prop :=
  ∀ memory chr cur, Fits buffer cur → (draw memory chr cur).All P

/-! ## The calls -/

theorem putLogged_holds {next : Cursor → Cursor} (hnext : ∀ cur, Stays cur (next cur))
    (hdraw : Within buffer P draw) (hfits : Fits buffer page.1) (chr : Byte) :
    (putLogged next draw page chr).Holds P fun page => Fits buffer page.1 := by
  have hwrap := hfits.stays (stays_wrap page.1)
  have hcell : (draw page.2 chr page.1.wrap).Holds P fun _ => True :=
    ⟨hdraw page.2 chr _ hwrap, fun _ _ => trivial⟩
  exact holds_bind hcell fun memory _ => holds_pure (hwrap.stays (hnext _))

theorem printCharLogged_holds (hdraw : Within buffer P draw) (hfits : Fits buffer page.1)
    (chr : Byte) : (printCharLogged draw page chr).Holds P fun page => Fits buffer page.1 :=
  putLogged_holds stays_right hdraw hfits chr

theorem printStringLogged_holds (hdraw : Within buffer P draw) (hfits : Fits buffer page.1)
    (str : List Byte) :
    (printStringLogged draw str page).Holds P fun page => Fits buffer page.1 :=
  foldlM_holds (fun page chr hpage =>
    printCharLogged_holds hdraw (hpage.stays (stays_wrap page.1)) chr) hfits str

theorem printLogged_holds (hdraw : Within buffer P draw) (hfits : Fits buffer page.1)
    (str : List Byte) :
    (printLogged draw str page).Holds P fun page => Fits buffer page.1 := by
  refine printStringLogged_holds hdraw ?_ str
  dsimp only
  split_ifs
  · exact hfits.stays (stays_newLine page.1)
  · exact hfits

/-- One call. -/
theorem performLogged_holds {draw : Word32 → Draw ι}
    (hdraw : ∀ color, Within buffer P (draw color)) (hfits : Fits buffer page.1)
    (call : TextCall) :
    (performLogged renderer draw page call).Holds P fun page => Fits buffer page.1 := by
  cases call with
  | reset => exact holds_pure (hfits.stays (stays_reset _))
  | newLine => exact holds_pure (hfits.stays (stays_newLine _))
  | back => exact holds_pure (hfits.stays (stays_back _))
  | up => exact holds_pure (hfits.stays (stays_up _))
  | down => exact holds_pure (hfits.stays (stays_down _))
  | left => exact holds_pure (hfits.stays (stays_left _))
  | right => exact holds_pure (hfits.stays (stays_right _))
  | move x y => exact holds_pure (hfits.stays (stays_move _ x y))
  | printChar chr color => exact printCharLogged_holds (hdraw color) hfits chr
  | putChar chr color => exact putLogged_holds Stays.refl (hdraw color) hfits chr
  | printString str color => exact printStringLogged_holds (hdraw color) hfits str
  | print str color => exact printLogged_holds (hdraw color) hfits str

/-- After every sequence of calls the cursor is on the grid of the screen, and every pixel of
every cell drawn on the way is on the screen. -/
theorem session_onScreen (hppsl : 8 ≤ renderer.buffer.ppsl.toNat)
    (hheight : 16 ≤ renderer.buffer.height.toNat) (memory : Memory) (calls : List TextCall) :
    Fits renderer.buffer
        (calls.foldl (BasicRenderer.perform renderer) (start renderer.buffer, memory)).1 ∧
      (session renderer memory calls).All (OnScreen renderer.buffer) := by
  have hdraw : ∀ color, Within renderer.buffer (OnScreen renderer.buffer)
      (drawCell renderer color) :=
    fun color memory chr cur => drawCell_onScreen hppsl hheight memory chr
  have hholds : (session renderer memory calls).Holds (OnScreen renderer.buffer)
      fun page => Fits renderer.buffer page.1 :=
    foldlM_holds (fun page call hpage => performLogged_holds hdraw hpage call)
      (fits_start renderer.buffer) calls
  exact ⟨hholds.2 _ (session_result renderer memory calls), hholds.1⟩

/-- A screen of two cells, which three characters and a step back do not leave. -/
theorem session_onScreen_cells :
    let renderer : BasicRenderer := ⟨⟨0x80000000, 1024, 16, 16, 16⟩, ⟨16, 0x90000000⟩⟩
    let calls : List TextCall :=
      [.print (literal "Red") 0xFFFFFFFF, .back, .move 0xFFFFFFFF 1, .putChar 0x58 0xFFFFFFFF]
    Fits renderer.buffer (calls.foldl (BasicRenderer.perform renderer)
        (start renderer.buffer, fun _ => 0)).1 ∧
      (session renderer (fun _ => 0) calls).All (OnScreen renderer.buffer) :=
  session_onScreen (by decide) (by decide) _ _

end RedX.TextGrid
