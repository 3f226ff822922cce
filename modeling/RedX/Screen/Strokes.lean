import RedX.Core.PartialRun
import RedX.Screen.Drawing

/-!
# Pictures

What is seen after any calls of `basicRenderer`: the strokes of the calls, one over the
other, on what was seen before.
-/

namespace RedX.Strokes

open RedX.MachineWord
open RedX.ByteMemory
open RedX.PartialRun
open RedX.AccessLog
open RedX.Layers
open RedX.TextRenderer
open RedX.TextCursor
open RedX.TextGrid
open RedX.PixelBounds
open RedX.Canvas
open RedX.Drawing

/-- A call of the cursor or of `basicRenderer`. -/
inductive DrawCall
  | text (call : TextCall)
  | plotPixel (x y color : Word32)
  | rect (x1 y1 x2 y2 color : Word32)
  | fill (color : Word32)
  | cls
  | printCharAt (chr : Byte) (x y color : Word32)
  | delChar (x y color : Word32)
  | clChar (x y color : Word32)
  | drawMouse (x y color : Word32)

def perform (renderer : BasicRenderer) (page : Page) : DrawCall → Option Page
  | .text call => some (TextGrid.BasicRenderer.perform renderer page call)
  | .plotPixel x y color => some (page.1, BasicRenderer.plotPixel renderer page.2 x y color)
  | .rect x1 y1 x2 y2 color =>
      (BasicRenderer.rect renderer page.2 x1 y1 x2 y2 color).map (page.1, ·)
  | .fill color => (BasicRenderer.fill renderer page.2 color).map (page.1, ·)
  | .cls => (BasicRenderer.cls renderer page.2).map (page.1, ·)
  | .printCharAt chr x y color => some (page.1, renderer.printCharAt page.2 chr x y color)
  | .delChar x y color => some (page.1, BasicRenderer.delChar renderer page.2 x y color)
  | .clChar x y color => some (page.1, BasicRenderer.clChar renderer page.2 x y color)
  | .drawMouse x y color => some (page.1, BasicRenderer.drawMouse renderer page.2 x y color)

/-- What a call draws, with its place. -/
inductive Stroke
  | glyph (chr : Byte) (x y color : Word32)
  | pixel (x y color : Word32)
  | rect (x1 y1 x2 y2 color : Word32)
  | cell (x y color : Word32)
  | pointer (x y color : Word32)
  deriving DecidableEq

/-- The stroke on the canvas; the glyphs are those in `memory`. -/
noncomputable def strokeLayer (renderer : BasicRenderer) (memory : Memory) :
    Stroke → Layer ℕ Word32
  | .glyph chr x y color =>
      ink (glyphPoints renderer.buffer renderer.font memory chr x y) color
  | .pixel x y color => ink {seen renderer.buffer x y} color
  | .rect x1 y1 x2 y2 color => ink (rectPoints renderer.buffer x1 y1 x2 y2) color
  | .cell x y color => ink (cellPoints renderer.buffer x y) color
  | .pointer x y color => ink (pointerPoints renderer.buffer x y) color

/-- Draws a character at the cursor and logs the stroke. -/
def drawStroke (renderer : BasicRenderer) (color : Word32) : Draw Stroke :=
  fun memory chr cur => access (.glyph chr (cur.x * 8) (cur.y * 16) color)
    (renderer.printCharAt memory chr (cur.x * 8) (cur.y * 16) color)

def strokeLogged (stroke : Stroke) (cur : Cursor) : Option Memory → Logged Stroke Page
  | none => hang
  | some memory => access stroke (cur, memory)

/-- A call with its strokes logged. -/
def performLogged (renderer : BasicRenderer) (page : Page) : DrawCall → Logged Stroke Page
  | .text call => TextGrid.performLogged renderer (drawStroke renderer) page call
  | .plotPixel x y color => strokeLogged (.pixel x y color) page.1
      (BasicRenderer.plotPixel renderer page.2 x y color)
  | .rect x1 y1 x2 y2 color => strokeLogged (.rect x1 y1 x2 y2 color) page.1
      (BasicRenderer.rect renderer page.2 x1 y1 x2 y2 color)
  | .fill color => strokeLogged
      (.rect 0 0 (renderer.buffer.width - 1) (renderer.buffer.height - 1) color) page.1
      (BasicRenderer.fill renderer page.2 color)
  | .cls => strokeLogged
      (.rect 0 0 (renderer.buffer.width - 1) (renderer.buffer.height - 1) 0x00000000) page.1
      (BasicRenderer.cls renderer page.2)
  | .printCharAt chr x y color => strokeLogged (.glyph chr x y color) page.1
      (renderer.printCharAt page.2 chr x y color)
  | .delChar x y color => strokeLogged (.cell x y color) page.1
      (BasicRenderer.delChar renderer page.2 x y color)
  | .clChar x y color => strokeLogged (.cell x y color) page.1
      (BasicRenderer.clChar renderer page.2 x y color)
  | .drawMouse x y color => strokeLogged (.pointer x y color) page.1
      (BasicRenderer.drawMouse renderer page.2 x y color)

/-- Calls one after the other. -/
def session (renderer : BasicRenderer) (page : Page) (calls : List DrawCall) :
    Logged Stroke Page :=
  calls.foldlM (performLogged renderer) page

/-- The call ends: its counters do not run up to the last `unsigned int`. -/
def DrawCall.Ends (buffer : Framebuffer) : DrawCall → Prop
  | .rect x1 _ x2 y2 _ => x2.toNat + 1 < 2 ^ 32 ∧ (x1 ≤ x2 → y2.toNat + 1 < 2 ^ 32)
  | .fill _ => buffer.width ≠ 0 ∧ buffer.height ≠ 0
  | .cls => buffer.width ≠ 0 ∧ buffer.height ≠ 0
  | _ => True

/-- The addresses of the cell that the call draws do not wrap. -/
def DrawCall.Placed (buffer : Framebuffer) : DrawCall → Prop
  | .printCharAt _ x y _ => Near buffer x y
  | .delChar x y _ => Near buffer x y
  | .clChar x y _ => Near buffer x y
  | _ => True

/-- A screen of at least one cell that lies in the frame buffer, with the font elsewhere. -/
structure TextScreen (renderer : BasicRenderer) : Prop where
  display : Display renderer.buffer
  columns : 8 ≤ renderer.buffer.ppsl.toNat
  rows : 16 ≤ renderer.buffer.height.toNat
  fits : renderer.buffer.height.toNat * renderer.buffer.ppsl.toNat * 4 ≤
    renderer.buffer.size.toNat
  apart : ∀ chr, FontApart renderer.buffer renderer.font chr

variable {renderer : BasicRenderer} {page page' : Page} {call : DrawCall} {calls : List DrawCall}
  {memory memory' : Memory} {cur : Cursor} {x y color : Word32} {chr : Byte}

/-! ## The log apart -/

theorem strokeLogged_result (stroke : Stroke) (cur : Cursor) (memory : Option Memory) :
    (strokeLogged stroke cur memory).result = memory.map (cur, ·) := by
  cases memory <;> rfl

theorem drawStroke_draws (renderer : BasicRenderer) (color : Word32) :
    Draws renderer color (drawStroke renderer color) := fun _ _ _ => rfl

theorem performLogged_result (renderer : BasicRenderer) (page : Page) (call : DrawCall) :
    (performLogged renderer page call).result = perform renderer page call := by
  cases call with
  | text call => exact TextGrid.performLogged_result (drawStroke_draws renderer) page call
  | _ => exact strokeLogged_result _ _ _

theorem session_result (renderer : BasicRenderer) (page : Page) (calls : List DrawCall) :
    (session renderer page calls).result = run (perform renderer) page calls := by
  induction calls generalizing page with
  | nil => rfl
  | cons call calls ih =>
      rw [session, List.foldlM_cons, result_bind, performLogged_result, run_cons]
      exact congrArg _ (funext fun next => ih next)

theorem session_cons_log {next : Page} (hcall : perform renderer page call = some next) :
    (session renderer page (call :: calls)).log =
      (performLogged renderer page call).log ++ (session renderer next calls).log := by
  rw [session, List.foldlM_cons]
  exact log_bind_of_result ((performLogged_result renderer page call).trans hcall) _

/-! ## Calls that end -/

theorem ends_iff (renderer : BasicRenderer) (page : Page) (call : DrawCall) :
    call.Ends renderer.buffer ↔ perform renderer page call ≠ none := by
  have hrect : ∀ x1 y1 x2 y2 color : Word32,
      (x2.toNat + 1 < 2 ^ 32 ∧ (x1 ≤ x2 → y2.toNat + 1 < 2 ^ 32)) ↔
        (BasicRenderer.rect renderer page.2 x1 y1 x2 y2 color).map (page.1, ·) ≠ none := by
    intro x1 y1 x2 y2 color
    have hx := x2.isLt
    have hy := y2.isLt
    rw [Ne, Option.map_eq_none_iff, rect_eq_none_iff, not_or, not_and]
    constructor
    · rintro ⟨hcolumn, hrow⟩
      exact ⟨by omega, fun hle => by have := hrow hle; omega⟩
    · rintro ⟨hcolumn, hrow⟩
      exact ⟨by omega, fun hle => by have := hrow hle; omega⟩
  have hfill : ∀ color : Word32, renderer.buffer.width ≠ 0 ∧ renderer.buffer.height ≠ 0 ↔
      (BasicRenderer.fill renderer page.2 color).map (page.1, ·) ≠ none := by
    intro color
    rw [BasicRenderer.fill, ← hrect]
    have hpred : ∀ extent : Word32, (extent - 1).toNat + 1 < 2 ^ 32 ↔ extent ≠ 0 := by
      intro extent
      bv_omega
    rw [hpred, hpred, imp_iff_right (zero_le _)]
  cases call with
  | rect x1 y1 x2 y2 color => exact hrect x1 y1 x2 y2 color
  | fill color => exact hfill color
  | cls => exact hfill 0x00000000
  | _ => exact iff_of_true trivial (Option.some_ne_none _)

/-- A run of calls ends exactly if each of its calls does. -/
theorem run_ends_iff (renderer : BasicRenderer) (page : Page) (calls : List DrawCall) :
    (∃ page', run (perform renderer) page calls = some page') ↔
      ∀ call ∈ calls, call.Ends renderer.buffer := by
  induction calls generalizing page with
  | nil => exact iff_of_true ⟨page, rfl⟩ fun _ hcall => absurd hcall List.not_mem_nil
  | cons call calls ih =>
      rw [List.forall_mem_cons, ends_iff renderer page]
      cases hcall : perform renderer page call with
      | none => simp [hcall]
      | some next => simp [hcall, ih]

/-! ## Strokes on the canvas -/

/-- The cells of the grid do not wrap. -/
theorem near_of_fits (hscreen : TextScreen renderer) (hfits : Fits renderer.buffer cur) :
    Near renderer.buffer (cur.x * 8) (cur.y * 16) := by
  have hcolumns : (cur.x.toNat + 1) * 8 ≤ renderer.buffer.ppsl.toNat :=
    cell_le hfits.onGrid.x hfits.xm (by decide) hscreen.columns
  have hrows : (cur.y.toNat + 1) * 16 ≤ renderer.buffer.height.toNat :=
    cell_le hfits.onGrid.y hfits.ym (by decide) hscreen.rows
  have hsmall := hscreen.display.small
  have hlow := hscreen.display.low
  have hinside := hscreen.fits
  have hppsl := renderer.buffer.ppsl.isLt
  have hheight := renderer.buffer.height.isLt
  have hx : (cur.x * 8).toNat = cur.x.toNat * 8 :=
    BitVec.toNat_mul_of_lt (show cur.x.toNat * 8 < 2 ^ 32 by omega)
  have hy : (cur.y * 16).toNat = cur.y.toNat * 16 :=
    BitVec.toNat_mul_of_lt (show cur.y.toNat * 16 < 2 ^ 32 by omega)
  have hlines : (cur.y.toNat * 16 + 15 + 1) * renderer.buffer.ppsl.toNat ≤
      renderer.buffer.height.toNat * renderer.buffer.ppsl.toNat :=
    Nat.mul_le_mul_right _ (by omega)
  rw [Nat.succ_mul] at hlines
  refine ⟨by omega, by omega, ?_⟩
  rw [hx, hy]
  unfold scanPoint
  omega

/-- The glyphs are not drawn over. -/
theorem glyphPoints_congr (hapart : FontApart renderer.buffer renderer.font chr)
    (hrest : AgreeOutside (frame renderer.buffer) memory memory') (x y : Word32) :
    glyphPoints renderer.buffer renderer.font memory' chr x y =
      glyphPoints renderer.buffer renderer.font memory chr x y := by
  ext point
  refine exists_congr fun row => and_congr_right fun hrow => ?_
  simp only [GlyphBit, hrest _ (hapart row hrow)]

/-- The strokes of a computation on pages are what it paints, and the cursor stays on the
grid. -/
def LogsStrokes (renderer : BasicRenderer) (memory current : Memory)
    (computation : Logged Stroke Page) : Prop :=
  (frameCanvas renderer.buffer).Logs (strokeLayer renderer memory) Prod.snd
    (fun page => Fits renderer.buffer page.1) current computation

theorem pure_strokes (hfits : Fits renderer.buffer cur) :
    LogsStrokes renderer memory memory' (pure (cur, memory')) := by
  rintro page ⟨⟩
  exact ⟨Canvas.Paints.refl _ memory', hfits⟩

theorem foldlM_strokes {event : Type} {events : List event}
    {body : Page → event → Logged Stroke Page}
    (hfits : Fits renderer.buffer page.1)
    (hbody : ∀ cur current, ∀ event ∈ events, Fits renderer.buffer cur →
      AgreeOutside (frame renderer.buffer) page.2 current →
      LogsStrokes renderer memory current (body (cur, current) event)) :
    LogsStrokes renderer memory page.2 (events.foldlM body page) := by
  unfold LogsStrokes
  exact logs_foldlM hfits fun current event hevent hcurrent hkept =>
    hbody current.1 current.2 event hevent hcurrent hkept

theorem glyph_paints (hscreen : TextScreen renderer) (hnear : Near renderer.buffer x y)
    (hrest : AgreeOutside (frame renderer.buffer) memory memory') (chr : Byte) (color : Word32) :
    (frameCanvas renderer.buffer).Paints (strokeLayer renderer memory (.glyph chr x y color))
      memory' (renderer.printCharAt memory' chr x y color) := by
  rw [strokeLayer, ← glyphPoints_congr (hscreen.apart chr) hrest]
  exact printCharAt_paints hscreen.display hnear (hscreen.apart chr) memory' color

theorem putLogged_strokes (hscreen : TextScreen renderer) {next : Cursor → Cursor}
    (hnext : ∀ cur, Stays cur (next cur)) (hfits : Fits renderer.buffer cur)
    (hrest : AgreeOutside (frame renderer.buffer) memory memory') (chr : Byte) (color : Word32) :
    LogsStrokes renderer memory memory'
      (putLogged next (drawStroke renderer color) (cur, memory') chr) := by
  have hwrap := hfits.stays (stays_wrap cur)
  have hdraw : (frameCanvas renderer.buffer).Logs (strokeLayer renderer memory) id
      (fun _ => True) memory' (drawStroke renderer color memory' chr cur.wrap) :=
    logs_access (glyph_paints hscreen (near_of_fits hscreen hwrap) hrest chr color) trivial
  exact logs_bind hdraw fun _ _ _ => pure_strokes (hwrap.stays (hnext _))

theorem printStringLogged_strokes (hscreen : TextScreen renderer)
    (hfits : Fits renderer.buffer cur)
    (hrest : AgreeOutside (frame renderer.buffer) memory memory') (str : List Byte)
    (color : Word32) :
    LogsStrokes renderer memory memory'
      (printStringLogged (drawStroke renderer color) str (cur, memory')) := by
  have hpage : Fits renderer.buffer (cur, memory').1 := hfits
  exact foldlM_strokes hpage fun cur _ chr _ hcur hkept =>
    putLogged_strokes hscreen stays_right (hcur.stays (stays_wrap cur)) (hrest.trans hkept) chr
      color

/-- The calls of the cursor and of text output. -/
theorem text_strokes (hscreen : TextScreen renderer) (hfits : Fits renderer.buffer cur)
    (hrest : AgreeOutside (frame renderer.buffer) memory memory') (call : TextCall) :
    LogsStrokes renderer memory memory'
      (TextGrid.performLogged renderer (drawStroke renderer) (cur, memory') call) := by
  cases call with
  | reset => exact pure_strokes (hfits.stays (stays_reset _))
  | newLine => exact pure_strokes (hfits.stays (stays_newLine _))
  | back => exact pure_strokes (hfits.stays (stays_back _))
  | up => exact pure_strokes (hfits.stays (stays_up _))
  | down => exact pure_strokes (hfits.stays (stays_down _))
  | left => exact pure_strokes (hfits.stays (stays_left _))
  | right => exact pure_strokes (hfits.stays (stays_right _))
  | move x y => exact pure_strokes (hfits.stays (stays_move _ x y))
  | printChar chr color => exact putLogged_strokes hscreen stays_right hfits hrest chr color
  | putChar chr color => exact putLogged_strokes hscreen Stays.refl hfits hrest chr color
  | printString str color => exact printStringLogged_strokes hscreen hfits hrest str color
  | print str color =>
      refine printStringLogged_strokes hscreen ?_ hrest str color
      dsimp only
      split_ifs
      · exact hfits.stays (stays_newLine cur)
      · exact hfits

/-- A call that draws one stroke. -/
theorem strokeLogged_strokes (hfits : Fits renderer.buffer cur) {stroke : Stroke}
    {drawn : Option Memory}
    (hpaints : ∀ after, drawn = some after →
      (frameCanvas renderer.buffer).Paints (strokeLayer renderer memory stroke) memory' after) :
    LogsStrokes renderer memory memory' (strokeLogged stroke cur drawn) := by
  cases drawn with
  | none => exact fun _ hnone => absurd hnone (by simp [strokeLogged, hang])
  | some after => exact logs_access (hpaints after rfl) hfits

theorem call_strokes (hscreen : TextScreen renderer) (hfits : Fits renderer.buffer cur)
    (hrest : AgreeOutside (frame renderer.buffer) memory memory')
    (hplaced : call.Placed renderer.buffer) :
    LogsStrokes renderer memory memory' (performLogged renderer (cur, memory') call) := by
  have hdisplay := hscreen.display
  cases call with
  | text call => exact text_strokes hscreen hfits hrest call
  | plotPixel x y color =>
      refine strokeLogged_strokes hfits ?_
      rintro after ⟨⟩
      exact plotPixel_paints hdisplay memory' x y color
  | rect x1 y1 x2 y2 color => exact strokeLogged_strokes hfits fun _ => rect_paints hdisplay
  | fill color => exact strokeLogged_strokes hfits fun _ => fill_paints hdisplay
  | cls => exact strokeLogged_strokes hfits fun _ => fill_paints hdisplay
  | printCharAt chr x y color =>
      refine strokeLogged_strokes hfits ?_
      rintro after ⟨⟩
      exact glyph_paints hscreen hplaced hrest chr color
  | delChar x y color =>
      refine strokeLogged_strokes hfits ?_
      rintro after ⟨⟩
      exact delChar_paints hdisplay hplaced memory' color
  | clChar x y color =>
      refine strokeLogged_strokes hfits ?_
      rintro after ⟨⟩
      exact delChar_paints hdisplay hplaced memory' color
  | drawMouse x y color =>
      refine strokeLogged_strokes hfits ?_
      rintro after ⟨⟩
      exact drawMouse_paints hdisplay memory' x y color

/-- Calls of `basicRenderer` one after the other, from a cursor on the grid on, end exactly if
each of them does.  Then their strokes one over the other, on what was seen before, are what
is seen, and no byte outside the frame buffer has changed. -/
theorem session_paints (hscreen : TextScreen renderer) (hfits : Fits renderer.buffer page.1)
    (hplaced : ∀ call ∈ calls, call.Placed renderer.buffer) :
    ((∃ page', run (perform renderer) page calls = some page') ↔
      ∀ call ∈ calls, call.Ends renderer.buffer) ∧
    ∀ page', run (perform renderer) page calls = some page' →
      Fits renderer.buffer page'.1 ∧
        (frameCanvas renderer.buffer).Paints
          (layers (strokeLayer renderer page.2) (session renderer page calls).log)
          page.2 page'.2 := by
  refine ⟨run_ends_iff renderer page calls, fun page' hrun => ?_⟩
  have hlogs : LogsStrokes renderer page.2 page.2 (session renderer page calls) :=
    foldlM_strokes hfits fun _ _ call hcall hcur hkept =>
      call_strokes hscreen hcur hkept (hplaced call hcall)
  rw [← session_result] at hrun
  exact (hlogs page' hrun).symm

/-- A screen of two cells: it is cleared, a word is printed over its end and the first cell is
erased. -/
theorem session_paints_cells :
    let renderer : BasicRenderer := ⟨⟨0x80000000, 1024, 16, 16, 16⟩, ⟨16, 0x90000000⟩⟩
    let page : Page := (start renderer.buffer, fun _ => 0)
    let calls : List DrawCall :=
      [.cls, .text (.print (literal "Red") 0xFFFFFFFF), .delChar 0 0 0, .drawMouse 3 4 0xFFFF0000]
    ∃ page', run (perform renderer) page calls = some page' ∧
      (frameCanvas renderer.buffer).Paints
        (layers (strokeLayer renderer page.2) (session renderer page calls).log)
        page.2 page'.2 := by
  intro renderer page calls
  have hscreen : TextScreen renderer :=
    ⟨⟨by decide, by decide, by decide⟩, by decide, by decide, by decide,
      fontApart_of_behind (by decide) (by decide)⟩
  have hplaced : ∀ call ∈ calls, call.Placed renderer.buffer := by
    simp only [calls, List.forall_mem_cons]
    exact ⟨trivial, trivial, ⟨by decide, by decide, by decide⟩, trivial, by simp⟩
  have hends : ∀ call ∈ calls, call.Ends renderer.buffer := by
    simp only [calls, List.forall_mem_cons]
    exact ⟨⟨by decide, by decide⟩, trivial, trivial, trivial, by simp⟩
  have hfits : Fits renderer.buffer page.1 := fits_start renderer.buffer
  obtain ⟨hiff, hpaints⟩ := session_paints hscreen hfits hplaced
  obtain ⟨page', hrun⟩ := hiff.mpr hends
  exact ⟨page', hrun, (hpaints page' hrun).2⟩

/-! ## The cleared screen -/

/-- The rectangle of `fill` and `cls`. -/
theorem mem_fillPoints_iff {buffer : Framebuffer} {point : ℕ}
    (hsmall : buffer.size.toNat < 2 ^ 32) (hwidth : buffer.width.toNat ≤ buffer.ppsl.toNat)
    (hfits : buffer.height.toNat * buffer.ppsl.toNat * 4 ≤ buffer.size.toNat)
    (hcolumns : buffer.width ≠ 0) (hrows : buffer.height ≠ 0) :
    point ∈ rectPoints buffer 0 0 (buffer.width - 1) (buffer.height - 1) ↔
      ∃ column < buffer.width.toNat, ∃ row < buffer.height.toNat,
        point = scanPoint buffer column row := by
  have hpred : ∀ (place extent : Word32), extent ≠ 0 →
      (place ≤ extent - 1 ↔ place.toNat < extent.toNat) := by
    intro place extent hextent
    bv_omega
  have hseen : ∀ x y : Word32, x.toNat < buffer.width.toNat → y.toNat < buffer.height.toNat →
      seen buffer x y = scanPoint buffer x.toNat y.toNat := by
    intro x y hx hy
    have hlines : (y.toNat + 1) * buffer.ppsl.toNat ≤
        buffer.height.toNat * buffer.ppsl.toNat := Nat.mul_le_mul_right _ hy
    rw [Nat.succ_mul] at hlines
    unfold seen scanPoint
    omega
  constructor
  · rintro ⟨x, y, ⟨-, hx⟩, ⟨-, hy⟩, rfl⟩
    rw [hpred _ _ hcolumns] at hx
    rw [hpred _ _ hrows] at hy
    exact ⟨x.toNat, hx, y.toNat, hy, hseen x y hx hy⟩
  · rintro ⟨column, hcolumn, row, hrow, rfl⟩
    have hwide := buffer.width.isLt
    have htall := buffer.height.isLt
    have hx : (BitVec.ofNat 32 column).toNat = column := by
      rw [BitVec.toNat_ofNat]
      omega
    have hy : (BitVec.ofNat 32 row).toNat = row := by
      rw [BitVec.toNat_ofNat]
      omega
    refine ⟨BitVec.ofNat 32 column, BitVec.ofNat 32 row, ⟨zero_le _, ?_⟩, ⟨zero_le _, ?_⟩, ?_⟩
    · rwa [hpred _ _ hcolumns, hx]
    · rwa [hpred _ _ hrows, hy]
    · rw [hseen _ _ (by omega) (by omega), hx, hy]

end RedX.Strokes
