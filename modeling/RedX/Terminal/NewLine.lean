import RedX.Core.PartialRun
import RedX.Terminal.BufferBounds
import RedX.Terminal.OutputQueue

/-!
# The end of a line

For a `'\n'` the handler pads the row with spaces up to the next multiple of the width and
turns the last cell before it into the line feed.  In a row that is empty or full there is
nothing to pad, so the text does not grow and the cell before the cursor is overwritten.
The two halves of the handler are steps of their own: a key may arrive between them.
-/

namespace RedX.LineEnd

open RedX.MachineWord
open RedX.PartialRun
open RedX.AccessLog
open RedX.TextTerminal
open RedX.KeyboardInput
open RedX.OutputQueue

/-- The text ends at the first zero. -/
def TextLength (t : Terminal) (length : ℕ) : Prop :=
  t.cells .textBuffer length = 0 ∧ ∀ position < length, t.cells .textBuffer position ≠ 0

/-- The start of the row after the one that the text cursor is on. -/
def nextRow (t : Terminal) (length : ℕ) : ℕ := (length / t.width.toNat + 1) * t.width.toNat

/-- Every character but spaces keeps its cell, and the text goes on in the next row. -/
structure MovedOn (t t' : Terminal) (length : ℕ) : Prop where
  kept : ∀ position < length, t.cells .textBuffer position ≠ space →
    t'.cells .textBuffer position = t.cells .textBuffer position
  length : TextLength t' (nextRow t length)

inductive Event where
  | key (scancode : Byte)
  | print (string : Word32 → Byte)
  /-- Any other writer of `out`. -/
  | fill (cells : ℤ → Byte)
  /-- The half of `handler` that serves `in`. -/
  | input
  /-- The half of `handler` that serves `out`. -/
  | output

def step (beyond : Byte) (m : Machine) : Event → Option Machine
  | .key scancode => (m.handleKeyboard beyond scancode).result
  | .print string => (m.terminal.print string).result.map fun t => { m with terminal := t }
  | .fill cells =>
      some { m with
        terminal := { m.terminal with
          cells := Function.update m.terminal.cells .outBuffer cells } }
  | .input =>
      ({ m.terminal with work := false } : Terminal).handleInput.result.map fun t =>
        { m with terminal := t }
  | .output =>
      m.terminal.handleOutput.result.map fun t =>
        { m with terminal := { t with schedulerWork := t.schedulerWork || t.work } }

/-- The event consumes a `'\n'`. -/
def EndsLine (m : Machine) : Event → Prop
  | .input => m.terminal.nextInput = lineFeed
  | .output => m.terminal.nextOutput = lineFeed
  | _ => False

/-- A `'\n'` that is consumed while the buffer has another row moves the text on to it. -/
def MovesOn (beyond : Byte) (m : Machine) (event : Event) : Prop :=
  EndsLine m event → ∀ length, TextLength m.terminal length →
    nextRow m.terminal length < m.terminal.bufferSize.toNat →
    ∃ m', step beyond m event = some m' ∧ MovedOn m.terminal m'.terminal length

/-- The row of the text cursor is neither empty nor full, and an `int` reaches the start of
the next. -/
def RowBegun (m : Machine) (event : Event) : Prop :=
  EndsLine m event → ∀ length, TextLength m.terminal length →
    nextRow m.terminal length < m.terminal.bufferSize.toNat →
    length % m.terminal.width.toNat ≠ 0 ∧ nextRow m.terminal length ≤ 2 ^ 31

variable {beyond : Byte} {m m' : Machine} {t t' : Terminal} {i ti : Word32} {chr : Byte}
  {length : ℕ}

/-- A call of `handler` is its two halves. -/
theorem handler_eq_halves (beyond : Byte) (m : Machine) :
    m.step beyond .handler = run (step beyond) m [.input, .output] := by
  simp only [Machine.step, Terminal.handler, run_cons, run_nil, step, result_bind, result_pure]
  cases ({ m.terminal with work := false } : Terminal).handleInput.result with
  | none => rfl
  | some middle =>
      simp only [Option.bind_some, Option.map_some]
      cases middle.handleOutput.result <;> rfl

theorem TextLength.unique {other : ℕ} (hlength : TextLength t length)
    (hother : TextLength t other) : length = other := by
  rcases lt_trichotomy length other with hlt | hsame | hlt
  · exact absurd hlength.1 (hother.2 _ hlt)
  · exact hsame
  · exact absurd hother.1 (hlength.2 _ hlt)

/-! ## The layout of the text -/

/-- Where the text buffer holds zero the text has ended, and the command buffer holds zero
too; line feeds end rows.  The last cell, which `init` does not clear, is left out. -/
structure Laid (t : Terminal) : Prop where
  rows : t.width.toNat ∣ t.bufferSize.toNat
  size : t.bufferSize.toNat ≤ 2 ^ 64 - 2 ^ 31
  packed : ∀ position later : ℕ, position < later → later + 1 < t.bufferSize.toNat →
    t.cells .textBuffer position = 0 → t.cells .textBuffer later = 0
  ended : ∀ position : ℕ, position + 1 < t.bufferSize.toNat → position + 1 < 2 ^ 31 →
    t.cells .textBuffer position = lineFeed → (position + 1) % t.width.toNat = 0
  echoed : ∀ position : ℕ, position + 1 < t.bufferSize.toNat →
    t.cells .textBuffer position = 0 → t.cells .commandBuffer position = 0

/-- The characters of a buffer go at least up to `i`. -/
def Filled (t : Terminal) (buffer : Buffer) (i : Word32) : Prop :=
  ∀ position : ℕ, position < i.toNat → position < 2 ^ 31 → t.cells buffer position ≠ 0

/-- A scan ends at `i`. -/
structure Found (t : Terminal) (buffer : Buffer) (i : Word32) : Prop where
  zero : t.cells buffer i.toInt = 0
  filled : Filled t buffer i

/-- `t'` has the text of `t`, and zeros of the command buffer are still zeros. -/
structure SameText (t t' : Terminal) : Prop where
  bufferSize : t'.bufferSize = t.bufferSize
  width : t'.width = t.width
  text : t'.cells .textBuffer = t.cells .textBuffer
  command : ∀ position : ℤ, t.cells .commandBuffer position = 0 →
    t'.cells .commandBuffer position = 0

theorem Laid.congr (hlaid : Laid t) (hsame : SameText t t') : Laid t' := by
  obtain ⟨hsize, hwidth, htext, hcommand⟩ := hsame
  constructor
  · rw [hsize, hwidth]
    exact hlaid.rows
  · rw [hsize]
    exact hlaid.size
  · rw [hsize, htext]
    exact hlaid.packed
  · rw [hsize, hwidth, htext]
    exact hlaid.ended
  · intro position hposition hzero
    rw [hsize] at hposition
    rw [htext] at hzero
    exact hcommand position (hlaid.echoed position hposition hzero)

/-- A position that an index names is the index itself. -/
theorem toInt_eq_natCast_iff {position : ℕ} :
    (position : ℤ) = i.toInt ↔ position = i.toNat ∧ i.toNat < 2 ^ 31 := by
  rw [BitVec.toInt_eq_toNat_cond]
  have := i.isLt
  split_ifs <;> omega

/-- A character lands in the cell that its index names, if the `int` is not negative. -/
theorem put_cell (t : Terminal) (buffer : Buffer) (i : Word32) (chr : Byte) (position : ℕ) :
    (t.put buffer i chr).cells buffer position =
      if position = i.toNat ∧ i.toNat < 2 ^ 31 then chr else t.cells buffer position := by
  rw [put_cells_self, Function.update_apply]
  simp only [toInt_eq_natCast_iff]

/-- A character stored where the text ends, or over one, keeps the layout. -/
theorem Laid.put_text (hlaid : Laid t) (hfilled : i.toNat < 2 ^ 31 → Filled t .textBuffer i)
    (hchr : chr ≠ 0)
    (hline : chr = lineFeed → i.toNat + 1 < t.bufferSize.toNat → i.toNat + 1 < 2 ^ 31 →
      (i.toNat + 1) % t.width.toNat = 0) : Laid (t.put .textBuffer i chr) := by
  refine ⟨hlaid.rows, hlaid.size, fun position later hlt hlater hzero => ?_,
    fun position hposition hsmall hfeed => ?_, fun position hposition hzero => ?_⟩
  · rw [put_cell] at hzero ⊢
    split_ifs at hzero with hhere
    · exact absurd hzero hchr
    · rw [if_neg]
      · exact hlaid.packed position later hlt hlater hzero
      · rintro ⟨rfl, hint⟩
        exact hfilled hint position hlt (by omega) hzero
  · rw [put_cell] at hfeed
    split_ifs at hfeed with hhere
    · rw [hhere.1] at hposition hsmall ⊢
      exact hline hfeed hposition hsmall
    · exact hlaid.ended position hposition hsmall hfeed
  · rw [put_cell] at hzero
    split_ifs at hzero with hhere
    · exact absurd hzero hchr
    · exact hlaid.echoed position hposition hzero

/-! ## The padding loop -/

/-- The condition of the loop in `newLine`. -/
def morePadding (ti : Word32) (t : Terminal) : Logged Access Bool := do
  let chr ← t.read .textBuffer (ti - 1)
  if chr = lineFeed then return false
  else
    let column ← modulo (ti.signExtend 64) t.width
    return column != 0

theorem newLine_eq (t : Terminal) (ti : Word32) :
    t.newLine ti = forInt morePadding (fun ti t => t.write .textBuffer ti space) passes ti t >>=
      fun stop => stop.2.write .textBuffer (stop.1 - 1) lineFeed := rfl

/-- The padding loop ends at this index. -/
def RowEnd (t : Terminal) (ti : Word32) : Prop :=
  t.cells .textBuffer (ti - 1).toInt = lineFeed ∨
    (ti.signExtend 64).toNat % t.width.toNat = 0

theorem morePadding_all {P : Access → Prop} {ti : Word32} (t : Terminal)
    (hplace : P (.textBuffer, (ti - 1).toInt)) : (morePadding ti t).All P := by
  rw [morePadding, all_bind]
  refine ⟨(all_access _ _).mpr hplace, fun chr _ => ?_⟩
  split_ifs
  · exact all_pure false
  · rw [all_bind, modulo]
    refine ⟨?_, fun column _ => all_pure _⟩
    split_ifs
    · exact fun _ hnone => absurd hnone List.not_mem_nil
    · exact all_pure _

theorem morePadding_holds (ti : Word32) (t : Terminal) :
    (morePadding ti t).Holds anywhere fun again => again = true ↔ ¬ RowEnd t ti := by
  refine holds_bind (read_kept (ti - 1)) fun chr hchr => ?_
  subst hchr
  by_cases hfeed : t.cells .textBuffer (ti - 1).toInt = lineFeed
  · rw [if_pos hfeed]
    exact holds_pure (iff_of_false Bool.false_ne_true (not_not.mpr (.inl hfeed)))
  · rw [if_neg hfeed]
    refine holds_bind (Q := (· = ti.signExtend 64 % t.width)) ?_ fun column hcolumn => holds_pure ?_
    · rw [modulo]
      split_ifs
      · exact holds_hang
      · exact holds_pure rfl
    · have hzero : ti.signExtend 64 % t.width = 0 ↔
          (ti.signExtend 64).toNat % t.width.toNat = 0 := by
        rw [← BitVec.toNat_umod, ← BitVec.toNat_inj]
        rfl
      rw [hcolumn, bne_iff_ne, ne_eq, hzero, RowEnd, or_iff_right hfeed]

theorem toNat_pred (hpos : i ≠ 0) : (i - 1).toNat + 1 = i.toNat := by
  bv_omega

theorem toNat_pred_zero : ((0 : Word32) - 1).toNat = 2 ^ 32 - 1 := by decide

/-- A cell that no `int` names. -/
def FarKept (t t' : Terminal) : Prop :=
  ∀ position : ℕ, 2 ^ 31 ≤ position →
    t'.cells .textBuffer position = t.cells .textBuffer position

theorem farKept_put (t : Terminal) (i : Word32) (chr : Byte) :
    FarKept t (t.put .textBuffer i chr) := by
  intro position hfar
  rw [put_cell, if_neg (by omega)]

theorem filled_put_space (hfilled : Filled t .textBuffer i) :
    Filled (t.put .textBuffer i space) .textBuffer (i + 1) := by
  intro position hposition hsmall
  rw [put_cell]
  split_ifs with hhere
  · decide
  · exact hfilled position (by bv_omega) hsmall

theorem newLine_laid (hlaid : Laid t) (hfilled : Filled t .textBuffer ti) :
    (t.newLine ti).Holds anywhere fun t' => Laid t' ∧ FarKept t t' := by
  rw [newLine_eq]
  refine holds_bind (Q := fun stop => Laid stop.2 ∧ Filled stop.2 .textBuffer stop.1 ∧
      FarKept t stop.2 ∧ RowEnd stop.2 stop.1)
    (forInt_holds (fun ti current => Laid current ∧ Filled current .textBuffer ti ∧
      FarKept t current) ?_ ⟨hlaid, hfilled, fun _ _ => rfl⟩) ?_
  · rintro ti current ⟨hlaid, hfilled, hfar⟩
    refine (morePadding_holds ti current).mono fun again hagain => ?_
    split_ifs with hmore
    · refine holds_access trivial ⟨hlaid.put_text (fun _ => hfilled) (by decide) ?_,
        filled_put_space hfilled, fun position hposition => ?_⟩
      · exact fun hfeed => absurd hfeed (by decide)
      · rw [farKept_put current ti space position hposition, hfar position hposition]
    · exact ⟨hlaid, hfilled, hfar, by simpa [hmore] using hagain⟩
  · rintro stop ⟨hlaid, hfilled, hfar, hend⟩
    refine holds_access trivial ⟨hlaid.put_text ?_ (by decide) ?_, fun position hposition => ?_⟩
    · intro hint position hposition hsmall
      refine hfilled position ?_ hsmall
      bv_omega
    · intro _ hinside hint
      have hpos : stop.1 ≠ 0 := by
        intro hzero
        rw [hzero, toNat_pred_zero] at hint
        omega
      have hplace := toNat_pred hpos
      rcases hend with hfeed | hcolumn
      · rw [toInt_of_lt (by omega)] at hfeed
        exact hlaid.ended _ hinside hint hfeed
      · rwa [toNat_signExtend_of_lt (by omega), ← hplace] at hcolumn
    · rw [farKept_put stop.2 _ lineFeed position hposition, hfar position hposition]

/-! ## Every step keeps the layout -/

theorem scan_found (t : Terminal) (buffer : Buffer) :
    (t.scan buffer).Holds anywhere (Found t buffer) := by
  rw [Terminal.scan, Terminal.search]
  refine holds_bind (forInt_holds (fun i _ => Filled t buffer i) ?_
    fun _ hnone => absurd hnone (Nat.not_lt_zero _))
    fun stop hfound => holds_pure (Q := Found t buffer) hfound
  intro i _ hfilled
  refine holds_bind (read_kept i) fun chr hchr => ?_
  subst hchr
  apply holds_pure
  split_ifs with hmore
  · refine holds_pure fun position hposition hsmall => ?_
    by_cases hlast : position = i.toNat
    · rw [hlast, ← toInt_of_lt (by omega)]
      simpa using hmore
    · exact hfilled position (by bv_omega) hsmall
  · exact ⟨by simpa using hmore, hfilled⟩

/-- The text of a scan that ends inside the range of an `int`. -/
theorem Found.toNat_eq (hfound : Found t .textBuffer ti) (hlength : TextLength t length)
    (hint : length < 2 ^ 31) : ti.toNat = length := by
  have hle : ti.toNat ≤ length := by
    by_contra hlt
    exact hfound.filled length (not_le.mp hlt) hint hlength.1
  have hzero := hfound.zero
  rw [toInt_of_lt (by omega)] at hzero
  by_contra hne
  exact hlength.2 ti.toNat (by omega) hzero

theorem sameText_of_kept {buffers : List Buffer} (hkept : Kept buffers t t')
    (htext : .textBuffer ∉ buffers) (hcommand : .commandBuffer ∉ buffers) : SameText t t' where
  bufferSize := hkept.bufferSize
  width := hkept.width
  text := hkept.cells _ htext
  command := fun _ hzero => (hkept.cells _ hcommand) ▸ hzero

theorem clearCommand_sameText (t : Terminal) : t.clearCommand.Holds anywhere (SameText t) := by
  rw [Terminal.clearCommand]
  refine holds_bind (forInt_holds (Q := fun stop => SameText t stop.2)
    (fun _ => SameText t) ?_ ⟨rfl, rfl, rfl, fun _ => id⟩) fun stop hsame => holds_pure hsame
  intro i current hsame
  refine (holds_anywhere _).mono fun again _ => ?_
  split_ifs
  · refine holds_access trivial
      ⟨hsame.bufferSize, hsame.width, hsame.text, fun position hzero => ?_⟩
    rw [put_cells_self, Function.update_apply]
    split_ifs
    · rfl
    · exact hsame.command position hzero
  · exact hsame

theorem enterLine_laid (hlaid : Laid t) (hfilled : Filled t .textBuffer ti) :
    (t.enterLine ti).Holds anywhere Laid := by
  unfold Terminal.enterLine
  refine holds_bind (newLine_laid hlaid hfilled) fun padded hpadded => ?_
  rw [runCommand, if_pos rfl]
  refine holds_bind (print_eq padded (by decide)) fun printed hprinted => ?_
  subst hprinted
  exact (clearCommand_sameText printed).mono fun _ => hpadded.1.congr

/-- A character of the command line stored where the text has not ended. -/
theorem Laid.put_command (hlaid : Laid t)
    (hshown : i.toNat + 1 < t.bufferSize.toNat → i.toNat < 2 ^ 31 →
      t.cells .textBuffer i.toNat ≠ 0) : Laid (t.put .commandBuffer i chr) := by
  have hkept : Kept [.commandBuffer] t (t.put .commandBuffer i chr) :=
    kept_put i chr (List.mem_singleton_self _)
  have htext := hkept.cells .textBuffer (by decide)
  constructor
  · exact hlaid.rows
  · exact hlaid.size
  · rw [htext]
    exact hlaid.packed
  · rw [htext]
    exact hlaid.ended
  · rw [htext]
    intro position hposition hzero
    rw [put_cell, if_neg]
    · exact hlaid.echoed position hposition hzero
    · rintro ⟨rfl, hsmall⟩
      exact hshown hposition hsmall hzero

/-- The command line is not longer than the text. -/
theorem Found.le_of_laid {ci : Word32} (hlaid : Laid t) (hti : Found t .textBuffer ti)
    (hci : Found t .commandBuffer ci) (hsmall : ci.toNat < 2 ^ 31)
    (hinside : ci.toNat + 1 < t.bufferSize.toNat) : ci.toNat ≤ ti.toNat := by
  by_contra hlt
  have hend := hti.zero
  rw [toInt_of_lt (by omega)] at hend
  exact hci.filled _ (by omega) (by omega) (hlaid.echoed _ (by omega) hend)

/-- A character that is no line feed, stored where the text ends and where the command
line ends. -/
theorem echo_laid {ci : Word32} (hlaid : Laid t) (hchr : chr ≠ 0) (hline : chr ≠ lineFeed)
    (hti : Found t .textBuffer ti) (hci : Found t .commandBuffer ci) :
    (t.echo ti ci chr).Holds anywhere Laid := by
  have hshown := hlaid.put_text (fun _ => hti.filled) hchr fun hfeed => absurd hfeed hline
  refine holds_bind (holds_access (Q := (· = t.put .textBuffer ti chr)) trivial rfl)
    fun shown hsame => holds_access trivial ?_
  subst hsame
  refine hshown.put_command fun hinside hsmall => ?_
  have hle := hti.le_of_laid hlaid hci hsmall hinside
  rw [put_cell]
  split_ifs with hend
  · exact hchr
  · exact hti.filled _ (by omega) hsmall

/-- What the handler does to its queues and flags leaves the text as it is. -/
theorem SameText.of_eq (hsize : t'.bufferSize = t.bufferSize) (hwidth : t'.width = t.width)
    (htext : t'.cells .textBuffer = t.cells .textBuffer)
    (hcommand : t'.cells .commandBuffer = t.cells .commandBuffer) : SameText t t' :=
  ⟨hsize, hwidth, htext, fun _ hzero => hcommand ▸ hzero⟩

theorem takeInput_laid (hlaid : Laid t) (hchr : chr ≠ 0) :
    (t.takeInput chr).Holds anywhere Laid := by
  rw [Terminal.takeInput]
  refine holds_bind (scan_found t .textBuffer) fun ti hti => ?_
  refine holds_bind (scan_found t .commandBuffer) fun ci hci => ?_
  refine holds_bind (Q := Laid) ?_ fun shown hshown => ?_
  · by_cases hline : chr = lineFeed
    · rw [if_pos hline]
      exact enterLine_laid hlaid hti.filled
    · rw [if_neg hline]
      exact echo_laid hlaid hchr hline hti hci
  · refine holds_bind (holds_access (Q := (· = shown.put .inBuffer shown.ii 0)) trivial rfl)
      fun taken htaken => holds_pure ?_
    subst htaken
    exact hshown.congr (.of_eq rfl rfl rfl rfl)

theorem takeOutput_laid (hlaid : Laid t) (hchr : chr ≠ 0) :
    (t.takeOutput chr).Holds anywhere Laid := by
  rw [Terminal.takeOutput]
  refine holds_bind (scan_found t .textBuffer) fun ti hti => ?_
  refine holds_bind (Q := Laid) ?_ fun shown hshown => ?_
  · by_cases hline : chr = lineFeed
    · rw [if_pos hline]
      exact (newLine_laid hlaid hti.filled).mono fun _ hpadded => hpadded.1
    · rw [if_neg hline]
      exact holds_access trivial
        (hlaid.put_text (fun _ => hti.filled) hchr fun hfeed => absurd hfeed hline)
  · refine holds_bind (holds_access (Q := (· = shown.put .outBuffer shown.io 0)) trivial rfl)
      fun taken htaken => holds_pure ?_
    subst htaken
    exact hshown.congr (.of_eq rfl rfl rfl rfl)

theorem handleInput_laid (hlaid : Laid t) : t.handleInput.Holds anywhere Laid := by
  rw [Terminal.handleInput]
  refine holds_bind (read_kept t.ii) fun chr _ => ?_
  by_cases hzero : chr = 0
  · rw [if_pos hzero]
    exact holds_pure (hlaid.congr (.of_eq rfl rfl rfl rfl))
  · rw [if_neg hzero]
    exact takeInput_laid hlaid hzero

theorem handleOutput_laid (hlaid : Laid t) : t.handleOutput.Holds anywhere Laid := by
  rw [Terminal.handleOutput]
  refine holds_bind (read_kept t.io) fun chr _ => ?_
  by_cases hzero : chr = 0
  · rw [if_pos hzero]
    exact holds_pure (hlaid.congr (.of_eq rfl rfl rfl rfl))
  · rw [if_neg hzero]
    exact takeOutput_laid hlaid hzero

theorem laid_step {event : Event} (hlaid : Laid m.terminal)
    (hstep : step beyond m event = some m') : Laid m'.terminal := by
  cases event with
  | key scancode =>
      have heffect := step_key (m := m) hstep
      cases henqueues : m.enqueues beyond (.key scancode) with
      | none =>
          rw [henqueues] at heffect
          exact heffect ▸ hlaid
      | some chr =>
          rw [henqueues] at heffect
          obtain ⟨i, -, hput⟩ := heffect
          rw [hput]
          exact hlaid.congr (.of_eq rfl rfl rfl rfl)
  | print string =>
      obtain ⟨terminal, hprint, rfl⟩ := Option.map_eq_some_iff.mp hstep
      have hkept := ((print_zeros m.terminal string).2 terminal hprint).1
      exact hlaid.congr (sameText_of_kept hkept (by decide) (by decide))
  | fill cells =>
      obtain rfl := Option.some.inj hstep
      exact hlaid.congr (.of_eq rfl rfl rfl rfl)
  | input =>
      obtain ⟨terminal, hinput, rfl⟩ := Option.map_eq_some_iff.mp hstep
      have hidle : Laid { m.terminal with work := false } :=
        hlaid.congr (.of_eq rfl rfl rfl rfl)
      exact (handleInput_laid hidle).2 terminal hinput
  | output =>
      obtain ⟨terminal, houtput, rfl⟩ := Option.map_eq_some_iff.mp hstep
      have hlaid' := (handleOutput_laid hlaid).2 terminal houtput
      exact hlaid'.congr (.of_eq rfl rfl rfl rfl)

theorem laid_init (frameBuffer : TextRenderer.Framebuffer) (pool : Buffer → ℤ → Byte) :
    Laid (.init frameBuffer pool) := by
  let t := Terminal.init frameBuffer pool
  obtain ⟨hsize, hle⟩ : t.bufferSize.toNat = t.width.toNat * t.height.toNat ∧ _ :=
    toNat_bufferSize_init frameBuffer pool
  have hclear : ∀ (buffer : Buffer) (position : ℕ), position + 1 < t.bufferSize.toNat →
      t.cells buffer position = 0 :=
    fun buffer _ hposition => init_cells_eq_zero frameBuffer pool buffer hposition
  refine ⟨⟨t.height.toNat, hsize⟩, hle.trans (by decide), ?_, ?_, ?_⟩
  · exact fun _ later _ hlater _ => hclear .textBuffer later hlater
  · intro position hposition _ hfeed
    rw [hclear .textBuffer position hposition] at hfeed
    exact absurd hfeed (by decide)
  · exact fun position hposition _ => hclear .commandBuffer position hposition

/-! ## A line feed in a row that has begun -/

/-- Between a place in a row and the end of the row no column is zero. -/
theorem mod_ne_zero_of_row {width place : ℕ} (hbegun : length % width ≠ 0)
    (hle : length ≤ place) (hlt : place < (length / width + 1) * width) : place % width ≠ 0 := by
  intro hzero
  obtain ⟨row, rfl⟩ := Nat.dvd_of_mod_eq_zero hzero
  rw [Nat.mul_comm (length / width + 1)] at hlt
  have hrow : row ≤ length / width := Nat.le_of_lt_succ (Nat.lt_of_mul_lt_mul_left hlt)
  have hstart : width * row ≤ length :=
    (Nat.mul_le_mul_left width hrow).trans (Nat.mul_div_le length width)
  exact hbegun (le_antisymm hle hstart ▸ Nat.mul_mod_right width row)

/-- The column that the loop computes at the end of a row, also where the `int` has just
become negative. -/
theorem column_of_dvd {width : ℕ} (hdvd : width ∣ ti.toNat) (hint : ti.toNat ≤ 2 ^ 31) :
    (ti.signExtend 64).toNat % width = 0 := by
  apply Nat.mod_eq_zero_of_dvd
  rcases lt_or_eq_of_le hint with hlt | heq
  · rwa [toNat_signExtend_of_lt hlt]
  · rw [toNat_signExtend_of_ge heq.ge, show 2 ^ 64 - 2 ^ 32 + ti.toNat = ti.toNat * (2 ^ 33 - 1) by
      omega]
    exact hdvd.mul_right _

theorem width_pos (hlaid : Laid t) (hroom : nextRow t length < t.bufferSize.toNat) :
    0 < t.width.toNat := by
  by_contra hzero
  have hrows := hlaid.rows
  rw [Nat.eq_zero_of_not_pos hzero, Nat.zero_dvd] at hrows
  omega

theorem lt_nextRow (hwidth : 0 < t.width.toNat) : length < nextRow t length := by
  rw [nextRow, Nat.mul_comm]
  exact Nat.lt_mul_div_succ length hwidth

/-- In a row that has begun, rows are longer than one cell, so the next one does not start
in the last cell. -/
theorem nextRow_succ_lt (hlaid : Laid t) (hroom : nextRow t length < t.bufferSize.toNat)
    (hbegun : length % t.width.toNat ≠ 0) : nextRow t length + 1 < t.bufferSize.toNat := by
  have hpos := width_pos hlaid hroom
  have hlong : t.width.toNat ≠ 1 := by
    intro hone
    rw [hone, Nat.mod_one] at hbegun
    exact hbegun rfl
  have hdvd : t.width.toNat ∣ nextRow t length := Nat.dvd_mul_left _ _
  have hrest := Nat.le_of_dvd (by omega) (Nat.dvd_sub hlaid.rows hdvd)
  omega

/-- The padding loop between the start of the padding and the end of the row. -/
structure Padded (t : Terminal) (length : ℕ) (ti : Word32) (current : Terminal) : Prop where
  width : current.width = t.width
  start : length ≤ ti.toNat
  finish : ti.toNat ≤ nextRow t length
  text : ∀ position : ℕ, current.cells .textBuffer position =
    if length ≤ position ∧ position < ti.toNat then space else t.cells .textBuffer position

/-- The loop ends at the end of the row and not before it. -/
theorem Padded.rowEnd_iff {current : Terminal} (hpadded : Padded t length ti current)
    (hlaid : Laid t) (hbegun : length % t.width.toNat ≠ 0)
    (hroom : nextRow t length < t.bufferSize.toNat) (hint : nextRow t length ≤ 2 ^ 31) :
    RowEnd current ti ↔ ti.toNat = nextRow t length := by
  obtain ⟨hwidth, hstart, hfinish, htext⟩ := hpadded
  have hfirst : length ≠ 0 := fun hzero => hbegun (by rw [hzero, Nat.zero_mod])
  rw [RowEnd, hwidth]
  constructor
  · intro hend
    by_contra hne
    have hplace := toNat_pred (i := ti) (by rintro rfl; exact hfirst (Nat.le_zero.mp hstart))
    rcases hend with hfeed | hcolumn
    · rw [toInt_of_lt (by omega), htext] at hfeed
      split_ifs at hfeed with hpad
      · exact absurd hfeed (by decide)
      · have hlast : (ti - 1).toNat + 1 = length := by omega
        have hrow := hlaid.ended _ (by omega) (by omega) hfeed
        exact hbegun (hlast ▸ hrow)
    · rw [toNat_signExtend_of_lt (by omega)] at hcolumn
      exact mod_ne_zero_of_row hbegun hstart (lt_of_le_of_ne hfinish hne) hcolumn
  · intro hsame
    exact .inr (column_of_dvd (hsame ▸ Nat.dvd_mul_left _ _) (hsame ▸ hint))

theorem Padded.next {current : Terminal} (hpadded : Padded t length ti current)
    (hint : nextRow t length ≤ 2 ^ 31) (hmore : ti.toNat ≠ nextRow t length) :
    Padded t length (ti + 1) (current.put .textBuffer ti space) := by
  obtain ⟨hwidth, hstart, hfinish, htext⟩ := hpadded
  have hnext : (ti + 1).toNat = ti.toNat + 1 := by
    bv_omega
  refine ⟨hwidth, by omega, by omega, fun position => ?_⟩
  rw [put_cell, htext, hnext]
  split_ifs <;> first | rfl | omega

/-- The row is padded and ends in a line feed. -/
theorem newLine_begun (hlaid : Laid t) (hlength : TextLength t length) (hti : ti.toNat = length)
    (hbegun : length % t.width.toNat ≠ 0) (hroom : nextRow t length < t.bufferSize.toNat)
    (hint : nextRow t length ≤ 2 ^ 31) :
    (t.newLine ti).Holds anywhere fun t' => MovedOn t t' length := by
  have hlt : length < nextRow t length := lt_nextRow (width_pos hlaid hroom)
  rw [newLine_eq]
  refine holds_bind (Q := fun stop => Padded t length stop.1 stop.2 ∧
      stop.1.toNat = nextRow t length)
    (forInt_holds (Padded t length) ?_ ⟨rfl, hti.ge, by omega, fun position => ?_⟩) ?_
  · intro ti current hpadded
    refine (morePadding_holds ti current).mono fun again hagain => ?_
    rw [hpadded.rowEnd_iff hlaid hbegun hroom hint] at hagain
    split_ifs with hmore
    · exact holds_access trivial (hpadded.next hint (hagain.mp hmore))
    · exact ⟨hpadded, not_not.mp fun hne => hmore (hagain.mpr hne)⟩
  · rw [if_neg (by omega)]
  · rintro stop ⟨⟨-, -, -, htext⟩, hstop⟩
    have hnonzero : stop.1 ≠ 0 := by
      intro hzero
      rw [hzero, show (0 : Word32).toNat = 0 from rfl] at hstop
      omega
    have hplace : (stop.1 - 1).toNat + 1 = nextRow t length := (toNat_pred hnonzero).trans hstop
    have hcell : ∀ position : ℕ, (stop.2.put .textBuffer (stop.1 - 1) lineFeed).cells .textBuffer
        position = if position + 1 = nextRow t length then lineFeed
          else if length ≤ position ∧ position < nextRow t length then space
          else t.cells .textBuffer position := by
      intro position
      rw [put_cell, htext, hstop]
      split_ifs <;> first | rfl | omega
    refine holds_access trivial ⟨fun position hposition _ => ?_, ?_, fun position hposition => ?_⟩
    · rw [hcell, if_neg (by omega), if_neg (by omega)]
    · rw [hcell, if_neg (by omega), if_neg (by omega)]
      exact hlaid.packed length _ hlt (nextRow_succ_lt hlaid hroom hbegun) hlength.1
    · rw [hcell]
      split_ifs with hfeed hpad
      · decide
      · decide
      · exact hlength.2 position (by omega)

/-! ## A line feed in an empty or full row -/

/-- There is nothing to pad, and the cell before the cursor is overwritten. -/
theorem newLine_unbegun (hti : ti.toNat % t.width.toNat = 0) (hint : ti.toNat < 2 ^ 31) :
    (t.newLine ti).Holds anywhere (· = t.put .textBuffer (ti - 1) lineFeed) := by
  have hend : RowEnd t ti := .inr (by rwa [toNat_signExtend_of_lt hint])
  rw [newLine_eq]
  refine holds_bind (Q := (· = (ti, t))) (forInt_holds (fun i current => i = ti ∧ current = t) ?_
    ⟨rfl, rfl⟩) ?_
  · rintro i current ⟨rfl, rfl⟩
    refine (morePadding_holds i current).mono fun again hagain => ?_
    rw [if_neg fun hmore => hagain.mp hmore hend]
  · rintro stop rfl
    exact holds_access trivial rfl

/-- The text still ends where it did, or where an `int` ends. -/
theorem not_movedOn_of_zero {position : ℕ} (hposition : position < nextRow t length)
    (hzero : t'.cells .textBuffer position = 0) : ¬ MovedOn t t' length :=
  fun hmoved => hmoved.length.2 position hposition hzero

theorem newLine_not_movedOn (hlaid : Laid t) (hlength : TextLength t length)
    (hroom : nextRow t length < t.bufferSize.toNat) (hfound : Found t .textBuffer ti)
    (hunbegun : ¬ (length % t.width.toNat ≠ 0 ∧ nextRow t length ≤ 2 ^ 31)) :
    (t.newLine ti).Holds anywhere fun t' => ¬ MovedOn t t' length := by
  have hlt : length < nextRow t length := lt_nextRow (width_pos hlaid hroom)
  by_cases hint : nextRow t length ≤ 2 ^ 31
  · have hti := hfound.toNat_eq hlength (by omega)
    have hrow : length % t.width.toNat = 0 := not_not.mp fun hbegun => hunbegun ⟨hbegun, hint⟩
    refine (newLine_unbegun (hti ▸ hrow) (by omega)).mono fun padded hpadded => ?_
    subst hpadded
    apply not_movedOn_of_zero hlt
    rw [put_cell, if_neg (by bv_omega)]
    exact hlength.1
  · refine (newLine_laid hlaid hfound.filled).mono fun padded hpadded => ?_
    have hplace : max length (2 ^ 31) < nextRow t length := max_lt hlt (not_le.mp hint)
    apply not_movedOn_of_zero hplace
    rw [hpadded.2 _ (le_max_right _ _)]
    rcases le_total (2 ^ 31) length with hfar | hnear
    · rw [max_eq_left hfar]
      exact hlength.1
    · rw [max_eq_right hnear]
      rcases lt_or_eq_of_le hnear with hlt | heq
      · exact hlaid.packed length _ hlt (by omega) hlength.1
      · rw [← heq]
        exact hlength.1

/-- What the two halves do to the text for a `'\n'`. -/
def LineFed (t t' : Terminal) : Prop :=
  ∃ ti padded, (t.scan .textBuffer).result = some ti ∧ (t.newLine ti).result = some padded ∧
    t'.cells .textBuffer = padded.cells .textBuffer

theorem MovedOn.congr {s s' : Terminal} (hmoved : MovedOn t t' length)
    (hwidth : s.width = t.width) (hbefore : s.cells .textBuffer = t.cells .textBuffer)
    (hafter : s'.cells .textBuffer = t'.cells .textBuffer) : MovedOn s s' length := by
  obtain ⟨hkept, hend, hfull⟩ := hmoved
  have hrow : nextRow s length = nextRow t length := by rw [nextRow, hwidth, nextRow]
  exact ⟨by rwa [hbefore, hafter], by rwa [hrow, hafter], by rwa [hrow, hafter]⟩

theorem LineFed.movedOn_iff (hlaid : Laid t) (hlength : TextLength t length)
    (hroom : nextRow t length < t.bufferSize.toNat) (hfed : LineFed t t') :
    MovedOn t t' length ↔ length % t.width.toNat ≠ 0 ∧ nextRow t length ≤ 2 ^ 31 := by
  obtain ⟨ti, padded, hscan, hnew, htext⟩ := hfed
  have hfound := (scan_found t .textBuffer).2 ti hscan
  have hlt : length < nextRow t length := lt_nextRow (width_pos hlaid hroom)
  constructor
  · intro hmoved
    by_contra hunbegun
    exact (newLine_not_movedOn hlaid hlength hroom hfound hunbegun).2 padded hnew
      (hmoved.congr rfl rfl htext.symm)
  · rintro ⟨hbegun, hint⟩
    have hti := hfound.toNat_eq hlength (by omega)
    exact ((newLine_begun hlaid hlength hti hbegun hroom hint).2 padded hnew).congr rfl rfl htext

/-! ## The two halves -/

theorem takeInput_lineFed (hresult : (t.takeInput lineFeed).result = some t') : LineFed t t' := by
  rw [Terminal.takeInput, result_bind, Option.bind_eq_some_iff] at hresult
  obtain ⟨ti, hscan, hresult⟩ := hresult
  rw [result_bind, Option.bind_eq_some_iff] at hresult
  obtain ⟨ci, -, hresult⟩ := hresult
  rw [if_pos rfl, result_bind, Option.bind_eq_some_iff] at hresult
  obtain ⟨shown, henter, hresult⟩ := hresult
  have htext : t'.cells .textBuffer = shown.cells .textBuffer := Option.some.inj hresult ▸ rfl
  unfold Terminal.enterLine at henter
  rw [result_bind, Option.bind_eq_some_iff] at henter
  obtain ⟨padded, hnew, henter⟩ := henter
  rw [runCommand, if_pos rfl, result_bind, Option.bind_eq_some_iff] at henter
  obtain ⟨printed, hprint, hclear⟩ := henter
  have hsame := (clearCommand_sameText printed).2 shown hclear
  have hprinted := (print_eq padded (by decide)).2 printed hprint
  exact ⟨ti, padded, hscan, hnew, by rw [htext, hsame.text, hprinted]⟩

theorem takeOutput_lineFed (hresult : (t.takeOutput lineFeed).result = some t') :
    LineFed t t' := by
  rw [Terminal.takeOutput, result_bind, Option.bind_eq_some_iff] at hresult
  obtain ⟨ti, hscan, hresult⟩ := hresult
  rw [if_pos rfl, result_bind, Option.bind_eq_some_iff] at hresult
  obtain ⟨padded, hnew, hresult⟩ := hresult
  exact ⟨ti, padded, hscan, hnew, Option.some.inj hresult ▸ rfl⟩

/-- The loop that clears the command buffer comes to a cell behind it that is zero, at the
latest after its counter has taken every value. -/
theorem clearCommand_returns (hsize : t.bufferSize.toNat ≤ 2 ^ 64 - 2 ^ 31) :
    t.clearCommand.Returns := by
  have hreach : t.reach ≤ 2 ^ 31 := min_le_right _ _
  rw [Terminal.clearCommand]
  rw [← BitVec.add_zero (0 : Word32)]
  refine returns_bind (forInt_returns_after (fun done (current : Terminal) =>
    current.bufferSize = t.bufferSize ∧ ∀ position < done,
      current.cells .commandBuffer (BitVec.ofNat 32 position).toInt = 0)
    ⟨rfl, fun _ hnone => absurd hnone (Nat.not_lt_zero _)⟩ ?_ ?_
    (show 2 ^ 32 + t.reach < passes by unfold passes; omega) ?_) fun stop _ => returns_pure stop.2
  · rintro done current -
    split_ifs
    · exact returns_pure true
    · exact returns_bind (returns_access _ _) fun _ _ => returns_pure _
  · rintro done current ⟨hsame, hclear⟩
    refine ⟨current.put .commandBuffer (0 + BitVec.ofNat 32 done) 0, rfl, hsame,
      fun position hposition => ?_⟩
    rw [put_cells_self, Function.update_apply]
    split_ifs with hlast
    · rfl
    · refine hclear position (lt_of_le_of_ne (Nat.le_of_lt_succ hposition) fun heq => hlast ?_)
      rw [heq, counter_zero]
  · rintro current ⟨hsame, hclear⟩
    have hwrapped : BitVec.ofNat 32 (0 + (2 ^ 32 + t.reach)) = BitVec.ofNat 32 t.reach := by
      apply BitVec.eq_of_toNat_eq
      simp only [BitVec.toNat_ofNat]
      omega
    rw [counter_zero, hwrapped, hsame, if_neg (not_lt_reach hsize)]
    simp [Terminal.read, access, hclear t.reach (by omega)]

/-- With zeros in both buffers where an `int` finds them, a `'\n'` of `in` is consumed. -/
theorem takeInput_returns (hlaid : Laid t) (hlength : TextLength t length)
    (hwidth : t.width ≠ 0) (hinside : length + 1 < t.bufferSize.toNat) (hint : length < 2 ^ 31) :
    (t.takeInput lineFeed).Returns := by
  have hreach : length < t.reach := lt_min (by omega) hint
  obtain ⟨ti, hti, -⟩ := scan_finds ⟨length, hreach, hlength.1⟩
  obtain ⟨ci, hci, -⟩ := scan_finds ⟨length, hreach, hlaid.echoed length hinside hlength.1⟩
  rw [Terminal.takeInput]
  refine returns_bind ⟨ti, hti⟩ fun ti _ => returns_bind ⟨ci, hci⟩ fun ci _ => ?_
  rw [if_pos rfl]
  refine returns_bind ?_ fun shown _ => returns_bind (returns_access _ _) fun _ _ => returns_pure _
  unfold Terminal.enterLine
  refine returns_bind (newLine_returns hwidth ti) fun padded hnew => ?_
  have hkept := (newLine_kept t ti (List.mem_singleton_self _)).2 padded hnew
  have hsize : padded.bufferSize.toNat ≤ 2 ^ 64 - 2 ^ 31 := hkept.bufferSize ▸ hlaid.size
  rw [runCommand, if_pos rfl]
  refine returns_bind (print_returns hsize (by decide)) fun printed hprint => ?_
  have hprinted := (print_eq padded (by decide)).2 printed hprint
  exact clearCommand_returns (hprinted ▸ hsize)

theorem takeOutput_returns (hlength : TextLength t length) (hwidth : t.width ≠ 0)
    (hinside : length + 1 < t.bufferSize.toNat) (hint : length < 2 ^ 31) :
    (t.takeOutput lineFeed).Returns := by
  have hreach : length < t.reach := lt_min (by omega) hint
  obtain ⟨ti, hti, -⟩ := scan_finds ⟨length, hreach, hlength.1⟩
  rw [Terminal.takeOutput]
  refine returns_bind ⟨ti, hti⟩ fun ti _ => ?_
  rw [if_pos rfl]
  exact returns_bind (newLine_returns hwidth ti) fun padded _ =>
    returns_bind (returns_access _ _) fun _ _ => returns_pure _

/-- A half that feeds the line, and returns when the row has begun, moves the text on exactly
in a row that has begun. -/
theorem movedOn_of_half {half : Logged Access Terminal} (hlaid : Laid t)
    (hlength : TextLength t length) (hroom : nextRow t length < t.bufferSize.toNat)
    (hfed : ∀ t', half.result = some t' → LineFed t t')
    (hreturns : t.width ≠ 0 → length + 1 < t.bufferSize.toNat → length < 2 ^ 31 → half.Returns) :
    (∃ t', half.result = some t' ∧ MovedOn t t' length) ↔
      length % t.width.toNat ≠ 0 ∧ nextRow t length ≤ 2 ^ 31 := by
  have hpos := width_pos hlaid hroom
  have hlt : length < nextRow t length := lt_nextRow hpos
  constructor
  · rintro ⟨t', hresult, hmoved⟩
    exact ((hfed t' hresult).movedOn_iff hlaid hlength hroom).mp hmoved
  · intro hbegun
    have hwidth : t.width ≠ 0 := by
      intro hzero
      rw [hzero] at hpos
      exact absurd hpos (by decide)
    have hnext := nextRow_succ_lt hlaid hroom hbegun.1
    obtain ⟨t', hresult⟩ := hreturns hwidth (by omega) (by omega)
    exact ⟨t', hresult, ((hfed t' hresult).movedOn_iff hlaid hlength hroom).mpr hbegun⟩

/-- The flags that a half sets afterwards do not concern the text. -/
theorem movedOn_map_iff {result : Option Terminal} {next : Terminal → Machine} {s : Terminal}
    (hwidth : s.width = t.width) (hbefore : s.cells .textBuffer = t.cells .textBuffer)
    (hafter : ∀ t', (next t').terminal.cells .textBuffer = t'.cells .textBuffer) :
    (∃ m', result.map next = some m' ∧ MovedOn s m'.terminal length) ↔
      ∃ t', result = some t' ∧ MovedOn t t' length := by
  constructor
  · rintro ⟨m', hmap, hmoved⟩
    obtain ⟨t', hresult, rfl⟩ := Option.map_eq_some_iff.mp hmap
    exact ⟨t', hresult, hmoved.congr hwidth.symm hbefore.symm (hafter t').symm⟩
  · rintro ⟨t', hresult, hmoved⟩
    exact ⟨next t', by rw [hresult]; rfl, hmoved.congr hwidth hbefore (hafter t')⟩

theorem movesOn_iff (hlaid : Laid m.terminal) (event : Event) :
    MovesOn beyond m event ↔ RowBegun m event := by
  cases event with
  | key scancode => exact iff_of_true False.elim False.elim
  | print string => exact iff_of_true False.elim False.elim
  | fill cells => exact iff_of_true False.elim False.elim
  | input =>
      refine imp_congr_right fun hline => forall_congr' fun length =>
        forall₂_congr fun hlength hroom => ?_
      let idle : Terminal := { m.terminal with work := false }
      have hidle : Laid idle := hlaid.congr (.of_eq rfl rfl rfl rfl)
      have hhalf : idle.handleInput.result = (idle.takeInput lineFeed).result := by
        rw [handleInput_result, show idle.nextInput = lineFeed from hline, if_neg (by decide)]
      have hmoved := movedOn_of_half hidle hlength hroom (fun _ => takeInput_lineFed)
        (takeInput_returns hidle hlength)
      rw [← hhalf] at hmoved
      exact Iff.trans (movedOn_map_iff (t := idle) rfl rfl fun _ => rfl) hmoved
  | output =>
      refine imp_congr_right fun hline => forall_congr' fun length =>
        forall₂_congr fun hlength hroom => ?_
      have hhalf : m.terminal.handleOutput.result = (m.terminal.takeOutput lineFeed).result := by
        rw [handleOutput_result, show m.terminal.nextOutput = lineFeed from hline,
          if_neg (by decide)]
      have hmoved := movedOn_of_half hlaid hlength hroom (fun _ => takeOutput_lineFed)
        (takeOutput_returns hlength)
      rw [← hhalf] at hmoved
      exact Iff.trans (movedOn_map_iff rfl rfl fun _ => rfl) hmoved

/-- In every run from `init` all line feeds move the text on to the next row exactly when
each is consumed in a row that has begun. -/
theorem line_feeds_move_on_iff (beyond : Byte) (frameBuffer : TextRenderer.Framebuffer)
    (pool : Buffer → ℤ → Byte) (keyboard : Keyboard) (events : List Event) :
    Meets (step beyond) (MovesOn beyond) ⟨.init frameBuffer pool, keyboard⟩ events ↔
      Meets (step beyond) RowBegun ⟨.init frameBuffer pool, keyboard⟩ events :=
  meets_congr (fun m => Laid m.terminal) (laid_init frameBuffer pool)
    (fun _ _ _ hlaid hstep => laid_step hlaid hstep) fun _ event hlaid => movesOn_iff hlaid event

instance (t : Terminal) (length : ℕ) : Decidable (TextLength t length) :=
  inferInstanceAs (Decidable (_ ∧ _))

/-- A machine after `init` with three rows of four characters and blank memory. -/
def twelveCells : Machine where
  terminal := .init ⟨0, 0, 40, 64, 0⟩ fun _ _ => 0
  keyboard := ⟨false, false, false⟩

/-- A key, the half of the handler that takes its character and the half that finds `in`
empty and rewinds. -/
def typed (scancode : Byte) : List Event := [.key scancode, .input, .input]

/-- `abcd` and Enter, which is not consumed yet. -/
def fullRow : List Event :=
  typed 0x1E ++ typed 0x30 ++ typed 0x2E ++ typed 0x20 ++ [.key Enter]

/-- The row `abcd` is full.  The line feed takes the cell of the `d`, and the text still
ends where it did. -/
theorem full_row_loses_character :
    (∃ m m', run (step 0) twelveCells fullRow = some m ∧ TextLength m.terminal 4 ∧
      m.terminal.cells .textBuffer 3 = 0x64 ∧ step 0 m .input = some m' ∧
      m'.terminal.cells .textBuffer 3 = lineFeed ∧ TextLength m'.terminal 4) ∧
      ¬ Meets (step 0) (MovesOn 0) twelveCells (fullRow ++ [.input]) := by
  have hbefore : (run (step 0) twelveCells fullRow).map (fun m =>
      (m.terminal.width, m.terminal.bufferSize, decide (m.terminal.nextInput = lineFeed),
        m.terminal.cells .textBuffer 3, decide (TextLength m.terminal 4))) =
      some (4, 12, true, 0x64, true) := by
    decide +kernel
  have hafter : (run (step 0) twelveCells (fullRow ++ [.input])).map (fun m =>
      (m.terminal.cells .textBuffer 3, decide (TextLength m.terminal 4))) =
      some (lineFeed, true) := by
    decide +kernel
  obtain ⟨m, hm, hstate⟩ := Option.map_eq_some_iff.mp hbefore
  obtain ⟨m', hm', hstate'⟩ := Option.map_eq_some_iff.mp hafter
  simp only [Prod.mk.injEq, decide_eq_true_eq] at hstate hstate'
  obtain ⟨hwidth, hsize, hline, hlast, hlength⟩ := hstate
  obtain ⟨hfed, hlength'⟩ := hstate'
  have hstep : step 0 m .input = some m' := by
    rw [run_append, hm, Option.bind_some, run_cons] at hm'
    simpa only [run_nil, Option.bind_fun_some] using hm'
  refine ⟨⟨m, m', hm, hlength, hlast, hstep, hfed, hlength'⟩, fun hmeets => ?_⟩
  have hrow : nextRow m.terminal 4 = 8 := by
    rw [nextRow, hwidth]
    rfl
  obtain ⟨m'', hstep', hmoved⟩ := hmeets.last hm hline 4 hlength (by rw [hrow, hsize]; decide)
  obtain rfl := Option.some.inj (hstep.symm.trans hstep')
  have hmoved' := hmoved.length
  rw [hrow] at hmoved'
  exact absurd (hlength'.unique hmoved') (by decide)

end RedX.LineEnd
