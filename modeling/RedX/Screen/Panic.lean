import RedX.Screen.PrintRow
import RedX.Screen.Strokes

/-!
# The screens of a halted kernel

`panic`, the fault handlers and the allocator without a free page clear a part of the screen,
print a line from its first cell on and halt.
-/

namespace RedX.Panic

open RedX.MachineWord
open RedX.ByteMemory
open RedX.PartialRun
open RedX.AccessLog
open RedX.Layers
open RedX.TextRenderer
open RedX.TextCursor
open RedX.TextGrid hiding session performLogged
open RedX.PrintRow (wrap_of_le)
open RedX.PixelBounds
open RedX.Canvas
open RedX.Drawing
open RedX.Strokes

/-- The text that `panic` and `getPage` print. -/
def bannerCalls (message : List Byte) : List DrawCall :=
  [.text .reset, .text (.printString (literal "[ ") 0xffffffff),
    .text (.printString (literal "PANIC") 0xffff0000),
    .text (.printString (literal " ] ") 0xffffffff), .text (.printString message 0xffffffff)]

/-- The body of the two overloads of `panic`, which differ in the width of the rectangle; the
page is the one with which the processor is halted. -/
def panicIn (width : Word32) (renderer : BasicRenderer) (message : List Byte) (page : Page) :
    Option Page :=
  run (perform renderer) page (.rect 0 0 width 16 0x00000000 :: bannerCalls message)

/-- `panic(const char *message)` -/
def panic : BasicRenderer → List Byte → Page → Option Page := panicIn 200

/-- `panic(char *message)` -/
def panicBuffer : BasicRenderer → List Byte → Page → Option Page := panicIn 800

def pageFaultHandler (renderer : BasicRenderer) : Page → Option Page :=
  panic renderer (literal "Page Fault")

def doubleFaultHandler (renderer : BasicRenderer) : Page → Option Page :=
  panic renderer (literal "Double Fault")

def genProcFaultHandler (renderer : BasicRenderer) : Page → Option Page :=
  panic renderer (literal "General Protection Fault")

/-- The end of `pageAllocator::getPage` when it has found no page. -/
def outOfRam (renderer : BasicRenderer) (page : Page) : Option Page :=
  run (perform renderer) page (.cls :: bannerCalls (literal "Out of RAM"))

/-- Characters with their colours. -/
abbrev Line := List (Byte × Word32)

def colored (color : Word32) (str : List Byte) : Line := str.map fun chr => (chr, color)

/-- What stands in the first row. -/
def banner (message : List Byte) : Line :=
  colored 0xffffffff (literal "[ ") ++ colored 0xffff0000 (literal "PANIC") ++
    colored 0xffffffff (literal " ] ") ++ colored 0xffffffff message

/-! ## A line of text -/

/-- The cursor after `count` characters from the first cell on; it does not leave the last
row. -/
def cellAt (xm ym : Word32) (count : ℕ) : Cursor :=
  ⟨BitVec.ofNat 32 (count % (xm.toNat + 1)),
    BitVec.ofNat 32 (min (count / (xm.toNat + 1)) ym.toNat), xm, ym⟩

/-- The strokes of a line whose first character is the one after `count` others. -/
def lineStrokes (xm ym : Word32) : ℕ → Line → List Stroke
  | _, [] => []
  | count, (chr, color) :: line =>
      .glyph chr ((cellAt xm ym count).x * 8) ((cellAt xm ym count).y * 16) color ::
        lineStrokes xm ym (count + 1) line

variable {renderer : BasicRenderer} {xm ym color : Word32} {count : ℕ} {memory : Memory}

theorem toNat_cellAt_x (xm ym : Word32) (count : ℕ) :
    (cellAt xm ym count).x.toNat = count % (xm.toNat + 1) := by
  have hcolumn : count % (xm.toNat + 1) < xm.toNat + 1 := Nat.mod_lt _ (Nat.succ_pos _)
  have hwide := xm.isLt
  rw [cellAt, BitVec.toNat_ofNat]
  omega

theorem toNat_cellAt_y (xm ym : Word32) (count : ℕ) :
    (cellAt xm ym count).y.toNat = min (count / (xm.toNat + 1)) ym.toNat := by
  have htall := ym.isLt
  have hrow := min_le_right (count / (xm.toNat + 1)) ym.toNat
  rw [cellAt, BitVec.toNat_ofNat, Nat.mod_eq_of_lt (by omega)]

theorem onGrid_cellAt (xm ym : Word32) (count : ℕ) : OnGrid (cellAt xm ym count) := by
  constructor
  · rw [BitVec.le_def, toNat_cellAt_x]
    exact Nat.le_of_lt_succ (Nat.mod_lt _ (Nat.succ_pos _))
  · rw [BitVec.le_def, toNat_cellAt_y]
    exact min_le_right _ _

theorem reset_eq_cellAt (cur : Cursor) : Cursor.reset cur = cellAt cur.xm cur.ym 0 := by
  rw [Cursor.reset, cellAt, Nat.zero_mod, Nat.zero_div, Nat.zero_min]
  rfl

/-- The next cell of the row, or the first one of the next row. -/
theorem next_cell {columns : ℕ} (hcolumns : 0 < columns) (count : ℕ) :
    (count + 1) / columns = (if count % columns + 1 = columns then count / columns + 1
        else count / columns) ∧
      (count + 1) % columns = if count % columns + 1 = columns then 0
        else count % columns + 1 := by
  have hlt := Nat.mod_lt count hcolumns
  have hsplit := Nat.mod_add_div count columns
  rw [Nat.div_mod_unique hcolumns]
  split_ifs with hend
  · rw [Nat.mul_succ]
    omega
  · omega

theorem cursor_ext {cur cur' : Cursor} (hx : cur.x.toNat = cur'.x.toNat)
    (hy : cur.y.toNat = cur'.y.toNat) (hxm : cur.xm = cur'.xm) (hym : cur.ym = cur'.ym) :
    cur = cur' := by
  obtain ⟨x, y, xm, ym⟩ := cur
  obtain ⟨x', y', xm', ym'⟩ := cur'
  rw [Cursor.mk.injEq]
  exact ⟨BitVec.eq_of_toNat_eq hx, BitVec.eq_of_toNat_eq hy, hxm, hym⟩

theorem right_cellAt (xm ym : Word32) (count : ℕ) :
    (cellAt xm ym count).right = cellAt xm ym (count + 1) := by
  obtain ⟨hrow, hcolumn⟩ := next_cell (show 0 < xm.toNat + 1 by omega) count
  have hx := toNat_cellAt_x xm ym count
  have hx' := toNat_cellAt_x xm ym (count + 1)
  have hy := toNat_cellAt_y xm ym count
  have hy' := toNat_cellAt_y xm ym (count + 1)
  rw [hcolumn] at hx'
  rw [hrow] at hy'
  have hlast := xm.isLt
  by_cases hend : (cellAt xm ym count).x = (cellAt xm ym count).xm
  · have hmod : count % (xm.toNat + 1) + 1 = xm.toNat + 1 := by
      rw [← hx, hend]
      rfl
    rw [if_pos hmod] at hx' hy'
    by_cases hbottom : (cellAt xm ym count).y = (cellAt xm ym count).ym
    · rw [Cursor.right, if_neg (not_not_intro hend), Cursor.down,
        if_neg (not_not_intro hbottom)]
      refine cursor_ext hx'.symm ?_ rfl rfl
      have hclamped : (cellAt xm ym count).y.toNat = ym.toNat := congrArg BitVec.toNat hbottom
      change (cellAt xm ym count).y.toNat = _
      omega
    · rw [right_rowEnd hend hbottom]
      refine cursor_ext hx'.symm ?_ rfl rfl
      have hbelow : (cellAt xm ym count).y.toNat ≠ ym.toNat :=
        fun hsame => hbottom (BitVec.eq_of_toNat_eq hsame)
      have htall := ym.isLt
      change ((cellAt xm ym count).y + 1).toNat = _
      rw [BitVec.toNat_add, show (1 : Word32).toNat = 1 from rfl]
      omega
  · have hmod : count % (xm.toNat + 1) + 1 ≠ xm.toNat + 1 := by
      intro hmod
      exact hend (BitVec.eq_of_toNat_eq (by rw [hx]; exact Nat.succ_injective hmod))
    have hlt := Nat.mod_lt count (show 0 < xm.toNat + 1 by omega)
    rw [if_neg hmod] at hx' hy'
    rw [right_inRow hend]
    refine cursor_ext ?_ (hy.trans hy'.symm) rfl rfl
    change ((cellAt xm ym count).x + 1).toNat = _
    rw [BitVec.toNat_add, show (1 : Word32).toNat = 1 from rfl]
    omega

/-! ## The strokes of a line -/

theorem lineStrokes_append (xm ym : Word32) (count : ℕ) (left right : Line) :
    lineStrokes xm ym count (left ++ right) =
      lineStrokes xm ym count left ++ lineStrokes xm ym (count + left.length) right := by
  induction left generalizing count with
  | nil => rfl
  | cons character left ih =>
      rw [List.cons_append, lineStrokes, ih, lineStrokes, List.length_cons, List.cons_append,
        Nat.add_assoc, Nat.add_comm 1]

/-- One character of `printString`. -/
theorem printChar_cellAt (xm ym : Word32) (count : ℕ) (renderer : BasicRenderer)
    (color : Word32) (chr : Byte) (memory : Memory) :
    let cur := cellAt xm ym count
    renderer.printChar color (cur.wrap, memory) chr = (cellAt xm ym (count + 1),
        renderer.printCharAt memory chr (cur.x * 8) (cur.y * 16) color) ∧
      (printCharLogged (drawStroke renderer color) (cur.wrap, memory) chr).log =
        [.glyph chr (cur.x * 8) (cur.y * 16) color] := by
  intro cur
  have hx : cur.x ≤ cur.xm := (onGrid_cellAt xm ym count).x
  constructor
  · rw [BasicRenderer.printChar, wrap_of_le hx, wrap_of_le hx, right_cellAt]
  · rw [printCharLogged, putLogged, wrap_of_le hx, wrap_of_le hx]
    rfl

theorem printString_cellAt (xm ym : Word32) (count : ℕ) (renderer : BasicRenderer)
    (color : Word32) (str : List Byte)
    (memory : Memory) :
    (renderer.printString color str (cellAt xm ym count, memory)).1 =
        cellAt xm ym (count + str.length) ∧
      (printStringLogged (drawStroke renderer color) str (cellAt xm ym count, memory)).log =
        lineStrokes xm ym count (colored color str) := by
  induction str generalizing count memory with
  | nil => exact ⟨rfl, rfl⟩
  | cons chr str ih =>
      obtain ⟨hchar, hlog⟩ := printChar_cellAt xm ym count renderer color chr memory
      obtain ⟨hlast, hstrokes⟩ := ih (count + 1) (renderer.printCharAt memory chr
        ((cellAt xm ym count).x * 8) ((cellAt xm ym count).y * 16) color)
      constructor
      · change (renderer.printString color str
          (renderer.printChar color ((cellAt xm ym count).wrap, memory) chr)).1 = _
        rw [hchar, hlast, List.length_cons, Nat.add_assoc, Nat.add_comm 1]
      · have hresult := printCharLogged_result (drawStroke_draws renderer color)
          ((cellAt xm ym count).wrap, memory) chr
        rw [hchar] at hresult
        rw [printStringLogged, List.foldlM_cons, log_bind_of_result hresult, hlog]
        exact congrArg _ hstrokes

/-- Strings that are printed one after the other. -/
theorem printStrings_log (xm ym : Word32) (count : ℕ) (renderer : BasicRenderer)
    (texts : List (List Byte × Word32)) (memory : Memory) :
    (session renderer (cellAt xm ym count, memory)
        (texts.map fun text => .text (.printString text.1 text.2))).log =
      lineStrokes xm ym count (texts.flatMap fun text => colored text.2 text.1) := by
  induction texts generalizing count memory with
  | nil => rfl
  | cons text texts ih =>
      obtain ⟨hlast, hstrokes⟩ := printString_cellAt xm ym count renderer text.2 text.1 memory
      have hcall : perform renderer (cellAt xm ym count, memory)
          (.text (.printString text.1 text.2)) = some (cellAt xm ym (count + text.1.length),
            (renderer.printString text.2 text.1 (cellAt xm ym count, memory)).2) :=
        congrArg some (Prod.ext hlast rfl)
      rw [List.map_cons, session_cons_log hcall, ih, List.flatMap_cons, lineStrokes_append,
        colored, List.length_map]
      exact congrArg (· ++ _) hstrokes

/-- The banner is printed from the first cell on, wherever the cursor was. -/
theorem banner_log (renderer : BasicRenderer) (message : List Byte) (page : Page) :
    (session renderer page (bannerCalls message)).log =
      lineStrokes page.1.xm page.1.ym 0 (banner message) := by
  have hreset : perform renderer page (.text .reset) =
      some (cellAt page.1.xm page.1.ym 0, page.2) :=
    congrArg some (Prod.ext (reset_eq_cellAt page.1) rfl)
  have htexts := printStrings_log page.1.xm page.1.ym 0 renderer
    [(literal "[ ", 0xffffffff), (literal "PANIC", 0xffff0000), (literal " ] ", 0xffffffff),
      (message, 0xffffffff)] page.2
  rw [bannerCalls, session_cons_log hreset]
  refine htexts.trans (congrArg _ ?_)
  simp only [List.flatMap_cons, List.flatMap_nil, List.append_nil, banner, List.append_assoc]

/-! ## What a line shows -/

/-- What a character of the line shows at a pixel of its cell. -/
def lineInk (font : PsfFont) (memory : Memory) (column row : ℕ)
    (character : Option (Byte × Word32)) : Option Word32 :=
  character.bind fun character =>
    if GlyphBit font memory character.1 column row then some character.2 else none

theorem scanPoint_inj {buffer : Framebuffer} {column row column' row' : ℕ}
    (hcolumn : column < buffer.ppsl.toNat) (hcolumn' : column' < buffer.ppsl.toNat)
    (hsame : scanPoint buffer column row = scanPoint buffer column' row') :
    column = column' ∧ row = row' := by
  have hrow := congrArg (· / buffer.ppsl.toNat) hsame
  have hplace := congrArg (· % buffer.ppsl.toNat) hsame
  simp only [scanPoint, Nat.add_mul_mod_self_right, Nat.mod_eq_of_lt hcolumn,
    Nat.mod_eq_of_lt hcolumn'] at hplace
  simp only [scanPoint, Nat.add_mul_div_right _ _ (Nat.zero_lt_of_lt hcolumn),
    Nat.div_eq_of_lt hcolumn, Nat.div_eq_of_lt hcolumn', Nat.zero_add] at hrow
  exact ⟨hplace, hrow⟩

/-- The cells of the first row. -/
theorem cellAt_firstRow (ym : Word32) (hcount : count ≤ xm.toNat)
    (hwide : (xm.toNat + 1) * 8 < 2 ^ 32) :
    ((cellAt xm ym count).x * 8).toNat = 8 * count ∧ ((cellAt xm ym count).y * 16).toNat = 0 := by
  have hx := toNat_cellAt_x xm ym count
  have hy := toNat_cellAt_y xm ym count
  rw [Nat.mod_eq_of_lt (by omega)] at hx
  rw [Nat.div_eq_of_lt (by omega), Nat.zero_min] at hy
  rw [BitVec.toNat_mul, BitVec.toNat_mul, hx, hy, show (8 : Word32).toNat = 8 from rfl]
  omega

section Line

variable {column row cell : ℕ}

/-- A glyph of the first row at a pixel of the screen. -/
theorem glyph_firstRow (hgrid : (xm.toNat + 1) * 8 ≤ renderer.buffer.ppsl.toNat)
    (hcount : count ≤ xm.toNat) (hcolumn : column < renderer.buffer.ppsl.toNat) (chr : Byte) :
    strokeLayer renderer memory
        (.glyph chr ((cellAt xm ym count).x * 8) ((cellAt xm ym count).y * 16) color)
        (scanPoint renderer.buffer column row) =
      if row < 16 ∧ column / 8 = count then
        lineInk renderer.font memory (column % 8) row (some (chr, color))
      else none := by
  have hppsl := renderer.buffer.ppsl.isLt
  obtain ⟨hx, hy⟩ := cellAt_firstRow ym hcount (by omega)
  have hmem : scanPoint renderer.buffer column row ∈
      glyphPoints renderer.buffer renderer.font memory chr ((cellAt xm ym count).x * 8)
        ((cellAt xm ym count).y * 16) ↔
      (row < 16 ∧ column / 8 = count) ∧ GlyphBit renderer.font memory chr (column % 8) row := by
    unfold glyphPoints
    rw [hx, hy]
    constructor
    · rintro ⟨row', hrow', column', hcolumn', hbit, hsame⟩
      obtain ⟨hplace, hline⟩ := scanPoint_inj hcolumn (by omega) hsame
      obtain rfl : row = row' := by omega
      rw [show column % 8 = column' by omega]
      exact ⟨⟨hrow', by omega⟩, hbit⟩
    · rintro ⟨⟨hrow, hcell⟩, hbit⟩
      refine ⟨row, hrow, column % 8, Nat.mod_lt _ (by decide), hbit, ?_⟩
      rw [Nat.zero_add, show 8 * count + column % 8 = column by omega]
  rw [strokeLayer, ink, lineInk]
  simp only [hmem, Option.bind_some]
  by_cases hsame : row < 16 ∧ column / 8 = count
  · simp [hsame]
  · simp [hsame]

/-- A line that fits in the first row shows each of its characters in the cell of its own. -/
theorem line_layer (hgrid : (xm.toNat + 1) * 8 ≤ renderer.buffer.ppsl.toNat) (text : Line)
    (hfits : count + text.length ≤ xm.toNat + 1) (hcolumn : column < renderer.buffer.ppsl.toNat) :
    layers (strokeLayer renderer memory) (lineStrokes xm ym count text)
        (scanPoint renderer.buffer column row) =
      if row < 16 ∧ count ≤ column / 8 then
        lineInk renderer.font memory (column % 8) row text[column / 8 - count]?
      else none := by
  induction text generalizing count with
  | nil => split_ifs <;> rfl
  | cons character text ih =>
      rw [List.length_cons] at hfits
      rw [lineStrokes, layers, Layer.stack, ih (by omega), glyph_firstRow hgrid (by omega) hcolumn]
      by_cases hrow : row < 16
      · simp only [hrow, true_and]
        generalize column / 8 = cell
        rcases lt_trichotomy cell count with hbefore | rfl | hafter
        · rw [if_neg (by omega), if_neg (by omega), if_neg (by omega), Option.none_or]
        · rw [if_neg (by omega), if_pos rfl, if_pos le_rfl, Nat.sub_self, Option.none_or]
          rfl
        · rw [if_pos (by omega), if_neg (by omega), if_pos (by omega), Option.or_none]
          obtain ⟨rest, rfl⟩ : ∃ rest, cell = count + rest + 1 := ⟨cell - count - 1, by omega⟩
          rw [show count + rest + 1 - count = rest + 1 by omega,
            show count + rest + 1 - (count + 1) = rest by omega, List.getElem?_cons_succ]
      · simp only [hrow, false_and, if_false, Option.none_or]

/-! ## What is seen at the end -/

variable {page : Page} {width : Word32}

theorem columns_of_fits (hscreen : TextScreen renderer) (hfits : Fits renderer.buffer page.1) :
    (page.1.xm.toNat + 1) * 8 ≤ renderer.buffer.ppsl.toNat :=
  cell_le (BitVec.le_refl _) hfits.xm (by decide) hscreen.columns

/-- A pixel of the first row of cells is on the screen, where it is looked for. -/
theorem firstRow_point (hscreen : TextScreen renderer) (column : ℕ) (hrow : row < 16)
    (hcolumn : column < renderer.buffer.ppsl.toNat) :
    4 * scanPoint renderer.buffer column row < renderer.buffer.size.toNat ∧
      seen renderer.buffer (BitVec.ofNat 32 column) (BitVec.ofNat 32 row) =
        scanPoint renderer.buffer column row := by
  have hwide := renderer.buffer.ppsl.isLt
  have hsmall := hscreen.display.small
  have hinside := hscreen.fits
  have hrows := hscreen.rows
  have hlines : (row + 1) * renderer.buffer.ppsl.toNat ≤
      renderer.buffer.height.toNat * renderer.buffer.ppsl.toNat :=
    Nat.mul_le_mul_right _ (by omega)
  rw [Nat.succ_mul] at hlines
  have hx : (BitVec.ofNat 32 column).toNat = column := by
    rw [BitVec.toNat_ofNat]
    omega
  have hy : (BitVec.ofNat 32 row).toNat = row := by
    rw [BitVec.toNat_ofNat]
    omega
  unfold seen scanPoint
  rw [hx, hy]
  constructor <;> omega

/-- A pixel of a screen with a line in its first row of cells, and black besides. -/
def linePixel (font : PsfFont) (memory : Memory) (text : Line) (column row : ℕ) : Word32 :=
  if row < 16 then (lineInk font memory (column % 8) row text[column / 8]?).getD 0 else 0

/-- What the banner on a cleared part of the screen shows. -/
theorem banner_over (hscreen : TextScreen renderer) (hfits : Fits renderer.buffer page.1)
    {memory' : Memory} {message : List Byte} {cleared : Stroke} {points : Set ℕ}
    (hpaints : (frameCanvas renderer.buffer).Paints (layers (strokeLayer renderer memory)
      (cleared :: lineStrokes page.1.xm page.1.ym 0 (banner message))) memory memory')
    (hcleared : strokeLayer renderer memory cleared = ink points 0)
    (hline : (banner message).length ≤ page.1.xm.toNat + 1)
    (hcolumn : column < renderer.buffer.ppsl.toNat)
    (hinside : 4 * scanPoint renderer.buffer column row < renderer.buffer.size.toNat)
    (hpoint : scanPoint renderer.buffer column row ∈ points) :
    picture renderer.buffer memory' (scanPoint renderer.buffer column row) =
      linePixel renderer.font memory (banner message) column row := by
  have hgrid := columns_of_fits hscreen hfits
  have hshown := hpaints.shown _ hinside
  rw [layers, hcleared, over_stack, Layer.over, line_layer hgrid _ (by omega) hcolumn,
    ink_over_of_mem hpoint] at hshown
  rw [linePixel]
  simp only [Nat.zero_le, and_true, Nat.sub_zero] at hshown
  split_ifs at hshown ⊢
  · exact hshown
  · exact hshown

/-- A part of the screen is cleared and the banner printed. -/
theorem cleared_banner (hscreen : TextScreen renderer) (hfits : Fits renderer.buffer page.1)
    (call : DrawCall) (cleared : Stroke) (message : List Byte)
    (hplaced : call.Placed renderer.buffer) (hends : call.Ends renderer.buffer)
    (hlog : ∀ next, perform renderer page call = some next →
      next.1 = page.1 ∧ (performLogged renderer page call).log = [cleared]) :
    ∃ page', run (perform renderer) page (call :: bannerCalls message) = some page' ∧
      (frameCanvas renderer.buffer).Paints (layers (strokeLayer renderer page.2)
        (cleared :: lineStrokes page.1.xm page.1.ym 0 (banner message))) page.2 page'.2 := by
  have hplaces : ∀ other ∈ call :: bannerCalls message, other.Placed renderer.buffer := by
    simp only [bannerCalls, List.forall_mem_cons]
    exact ⟨hplaced, trivial, trivial, trivial, trivial, trivial, by simp⟩
  have hstops : ∀ other ∈ call :: bannerCalls message, other.Ends renderer.buffer := by
    simp only [bannerCalls, List.forall_mem_cons]
    exact ⟨hends, trivial, trivial, trivial, trivial, trivial, by simp⟩
  obtain ⟨hiff, hpaints⟩ := session_paints hscreen hfits hplaces
  obtain ⟨page', hrun⟩ := hiff.mpr hstops
  obtain ⟨next, hcall⟩ := Option.ne_none_iff_exists'.mp ((ends_iff renderer page call).mp hends)
  obtain ⟨hcur, hstroke⟩ := hlog next hcall
  have hseen := (hpaints page' hrun).2
  rw [session_cons_log hcall, hstroke, banner_log, hcur] at hseen
  exact ⟨page', hrun, hseen⟩

/-- The screen of `panic`: whatever was seen and wherever the cursor was, in the cleared part of
the first row each cell shows the character of the banner that belongs there, and nothing
else.  Outside the frame buffer no byte has changed. -/
theorem panicIn_shows (hscreen : TextScreen renderer) (hfits : Fits renderer.buffer page.1)
    (hwidth : width.toNat + 1 < 2 ^ 32) (message : List Byte)
    (hline : (banner message).length ≤ page.1.xm.toNat + 1) :
    ∃ page', panicIn width renderer message page = some page' ∧
      AgreeOutside (frame renderer.buffer) page.2 page'.2 ∧
      ∀ cell column row, cell ≤ page.1.xm.toNat → 8 * cell + 7 ≤ width.toNat → column < 8 →
        row < 16 → picture renderer.buffer page'.2
            (scanPoint renderer.buffer (8 * cell + column) row) =
          (lineInk renderer.font page.2 column row (banner message)[cell]?).getD 0 := by
  have hgrid := columns_of_fits hscreen hfits
  have hstroke : ∀ next, perform renderer page (.rect 0 0 width 16 0) = some next →
      next.1 = page.1 ∧ (performLogged renderer page (.rect 0 0 width 16 0)).log =
        [.rect 0 0 width 16 0] := by
    intro next hnext
    obtain ⟨cleared, hrect, rfl⟩ := Option.map_eq_some_iff.mp hnext
    rw [performLogged, hrect]
    exact ⟨rfl, rfl⟩
  obtain ⟨page', hrun, hpaints⟩ := cleared_banner hscreen hfits (.rect 0 0 width 16 0)
    (.rect 0 0 width 16 0) message trivial ⟨hwidth, fun _ => by decide⟩ hstroke
  refine ⟨page', hrun, hpaints.rest, fun cell column row hcell hinside hcolumn hrow => ?_⟩
  obtain ⟨hpoint, hseen⟩ := firstRow_point hscreen (8 * cell + column) hrow (by omega)
  have hpixel : linePixel renderer.font page.2 (banner message) (8 * cell + column) row =
      (lineInk renderer.font page.2 column row (banner message)[cell]?).getD 0 := by
    rw [linePixel, if_pos hrow, show (8 * cell + column) % 8 = column by omega,
      show (8 * cell + column) / 8 = cell by omega]
  rw [← hpixel]
  refine banner_over hscreen hfits hpaints rfl hline (by omega) hpoint ?_
  refine ⟨BitVec.ofNat 32 (8 * cell + column), BitVec.ofNat 32 row, ⟨zero_le _, ?_⟩,
    ⟨zero_le _, ?_⟩, hseen.symm⟩
  · rw [BitVec.le_def, BitVec.toNat_ofNat]
    omega
  · rw [BitVec.le_def, BitVec.toNat_ofNat, show (16 : Word32).toNat = 16 from rfl]
    omega

/-- A screen of 80 by 25 cells, with the cursor in the middle of it. -/
def middle : BasicRenderer × Page :=
  (⟨⟨0x80000000, 0x100000, 640, 400, 640⟩, ⟨16, 0x90000000⟩⟩, ⟨3, 7, 79, 24⟩, fun _ => 0)

theorem textScreen_middle : TextScreen middle.1 :=
  ⟨⟨by decide, by decide, by decide⟩, by decide, by decide, by decide,
    fontApart_of_behind (by decide) (by decide)⟩

theorem fits_middle : Fits middle.1.buffer middle.2.1 :=
  ⟨⟨by decide, by decide⟩, by decide, by decide⟩

/-- The third cell after a general protection fault is a red letter P. -/
theorem panicIn_shows_fault : ∃ page', genProcFaultHandler middle.1 middle.2 = some page' ∧
    ∀ column row, column < 8 → row < 16 →
      picture middle.1.buffer page'.2 (scanPoint middle.1.buffer (8 * 2 + column) row) =
        (lineInk middle.1.font middle.2.2 column row (some (0x50, 0xffff0000))).getD 0 := by
  obtain ⟨page', hrun, -, hshown⟩ := panicIn_shows textScreen_middle fits_middle
    (show (200 : Word32).toNat + 1 < 2 ^ 32 by decide) (literal "General Protection Fault")
    (by decide)
  exact ⟨page', hrun, fun column row hcolumn hrow =>
    hshown 2 column row (by decide) (by decide) hcolumn hrow⟩

/-- The screen of an allocator without a page: the banner in the first row of cells, and black
on all the rest. -/
theorem outOfRam_shows (hscreen : TextScreen renderer) (hfits : Fits renderer.buffer page.1)
    (hwidth : renderer.buffer.width.toNat ≤ renderer.buffer.ppsl.toNat)
    (hnonempty : renderer.buffer.width ≠ 0)
    (hline : 20 ≤ page.1.xm.toNat + 1) :
    ∃ page', outOfRam renderer page = some page' ∧
      AgreeOutside (frame renderer.buffer) page.2 page'.2 ∧
      ∀ column row, column < renderer.buffer.width.toNat → row < renderer.buffer.height.toNat →
        picture renderer.buffer page'.2 (scanPoint renderer.buffer column row) =
          linePixel renderer.font page.2 (banner (literal "Out of RAM")) column row := by
  have hsome : renderer.buffer.height ≠ 0 := by
    have hrows := hscreen.rows
    bv_omega
  let edge : Stroke :=
    .rect 0 0 (renderer.buffer.width - 1) (renderer.buffer.height - 1) 0x00000000
  have hstroke : ∀ next, perform renderer page .cls = some next →
      next.1 = page.1 ∧ (performLogged renderer page .cls).log = [edge] := by
    intro next hnext
    obtain ⟨cleared, hcls, rfl⟩ := Option.map_eq_some_iff.mp hnext
    rw [performLogged, hcls]
    exact ⟨rfl, rfl⟩
  obtain ⟨page', hrun, hpaints⟩ := cleared_banner hscreen hfits .cls edge
    (literal "Out of RAM") trivial ⟨hnonempty, hsome⟩ hstroke
  refine ⟨page', hrun, hpaints.rest, fun column row hcolumn hrow => ?_⟩
  have hlines : (row + 1) * renderer.buffer.ppsl.toNat ≤
      renderer.buffer.height.toNat * renderer.buffer.ppsl.toNat := Nat.mul_le_mul_right _ hrow
  rw [Nat.succ_mul] at hlines
  have hinside := hscreen.fits
  refine banner_over hscreen hfits hpaints rfl hline (by omega) ?_ ?_
  · rw [scanPoint]
    omega
  · exact (mem_fillPoints_iff hscreen.display.small hwidth hscreen.fits hnonempty hsome).mpr
      ⟨column, hcolumn, row, hrow, rfl⟩

/-- Below the first row of cells the screen is black. -/
theorem outOfRam_shows_middle : ∃ page', outOfRam middle.1 middle.2 = some page' ∧
    ∀ column row, column < 640 → 16 ≤ row → row < 400 →
      picture middle.1.buffer page'.2 (scanPoint middle.1.buffer column row) = 0 := by
  obtain ⟨page', hrun, -, hshown⟩ := outOfRam_shows textScreen_middle fits_middle
    (by decide) (by decide) (by decide)
  refine ⟨page', hrun, fun column row hcolumn hbelow hrow => ?_⟩
  rw [hshown column row hcolumn hrow, linePixel, if_neg (by omega)]

end Line

end RedX.Panic
