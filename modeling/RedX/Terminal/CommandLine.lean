import RedX.Core.PartialRun
import RedX.Core.RewindQueue
import RedX.Core.TerminatedString
import RedX.Terminal.NewLine

/-!
# The command line

The handler stores every character of `terminal.in` at the end of the command buffer, and a
`'\n'` hands the buffer to `runCommand` and clears it.  The cells up to the last one but one
are zero behind the line, so the buffer holds the line as a string as long as it is that
short.
-/

namespace RedX.CommandLine

open RedX.MachineWord
open RedX.PartialRun
open RedX.AccessLog
open RedX.TerminatedString
open RedX.TextTerminal
open RedX.LineEnd

/-- What comes between two halves of `handler` may store anything in the two queues. -/
inductive Event where
  | queues (inCells outCells : ℤ → Byte)
  /-- The half of `handler` that serves `in`. -/
  | input
  /-- The half of `handler` that serves `out`. -/
  | output

/-- A terminal with the characters taken from `in` since the last `'\n'`. -/
structure History where
  terminal : Terminal
  line : List Byte

def History.start (terminal : Terminal) : History := ⟨terminal, []⟩

/-- Both queues with new contents. -/
def setQueues (t : Terminal) (inCells outCells : ℤ → Byte) : Terminal :=
  { t with
    cells := Function.update (Function.update t.cells .inBuffer inCells) .outBuffer outCells }

/-- The half of `handler` that serves `in`, after it has cleared `work`. -/
def inputHalf (t : Terminal) : Logged Access Terminal :=
  ({ t with work := false } : Terminal).handleInput

/-- The half that serves `out`, and the flag of the scheduler. -/
def outputHalf (t : Terminal) : Logged Access Terminal := do
  let t ← t.handleOutput
  return { t with schedulerWork := t.schedulerWork || t.work }

def call (t : Terminal) : Event → Logged Access Terminal
  | .queues inCells outCells => pure (setQueues t inCells outCells)
  | .input => inputHalf t
  | .output => outputHalf t

/-- The line after a character of `in` was taken. -/
def lineAfter (line : List Byte) (chr : Byte) : List Byte :=
  if chr = 0 then line else if chr = lineFeed then [] else line ++ [chr]

def History.step (h : History) (event : Event) : Option History :=
  (call h.terminal event).result.map fun terminal =>
    { terminal := terminal
      line := match event with
        | .input => lineAfter h.line h.terminal.nextInput
        | _ => h.line }

/-- An access lies in `[0, size)`, the one cell apart that the loop clearing the command
buffer reads behind it. -/
def Inside (size : Word64) (place : Access) : Prop :=
  0 ≤ place.2 ∧ (place.2 < size.toNat ∨ place = (.commandBuffer, (size.toNat : ℤ)))

def StaysInside (h : History) (event : Event) : Prop :=
  (call h.terminal event).All (Inside h.terminal.bufferSize)

/-- The line is shorter than `bufferSize - 1`. -/
def Short (h : History) : Prop := h.line.length + 1 < h.terminal.bufferSize.toNat

/-- What the handler does for a `'\n'` of `in` before it calls `runCommand`. -/
def beforeCommand (t : Terminal) : Logged Access Terminal := do
  let ti ← t.scan .textBuffer
  let _ ← t.scan .commandBuffer
  t.newLine ti

/-- What it does from the call of `runCommand` on. -/
def fromCommand (t : Terminal) : Logged Access Terminal := do
  let t ← (if runCommand (t.cells .commandBuffer) = 2 then
      t.print (cString "Shell: error, no such file or command\n")
    else pure t)
  let t ← t.clearCommand
  let t ← t.write .inBuffer t.ii 0
  return { t with ii := t.ii + 1, work := true }

/-- The command buffer that the half for `in` gives to `runCommand`, if it comes to that. -/
def passed (t : Terminal) : Option (ℤ → Byte) :=
  if t.nextInput = lineFeed then
    (beforeCommand { t with work := false }).result.map fun t => t.cells .commandBuffer
  else none

/-- The string at the start of a buffer. -/
def StringIs (buffer : ℤ → Byte) (str : List Byte) : Prop :=
  IsString 0 (fun position : ℕ => buffer position) str

variable {t t' : Terminal} {h h' : History} {chr : Byte} {line : List Byte} {ti ci : Word32}

theorem handler_eq_halves (t : Terminal) : t.handler = inputHalf t >>= outputHalf := rfl

/-- The command buffer that `runCommand` is given is the one after `beforeCommand`. -/
theorem takeInput_eq_command (t : Terminal) :
    t.takeInput lineFeed = beforeCommand t >>= fromCommand := by
  unfold Terminal.takeInput beforeCommand Terminal.enterLine fromCommand
  simp only [bind_assoc, ↓reduceIte]

/-- For a `'\n'` the half that serves `in` reads it, and `runCommand` is given the command
buffer as `beforeCommand` leaves it. -/
theorem inputHalf_eq_command (hfeed : t.nextInput = lineFeed) :
    inputHalf t = access (.inBuffer, t.ii.toInt) lineFeed >>= fun _ =>
      beforeCommand { t with work := false } >>= fromCommand := by
  have hread : inputHalf t = access (.inBuffer, t.ii.toInt) lineFeed >>= fun _ =>
      ({ t with work := false } : Terminal).takeInput lineFeed := by
    rw [inputHalf, Terminal.handleInput, Terminal.read,
      show ({ t with work := false } : Terminal).cells .inBuffer t.ii.toInt = lineFeed from hfeed]
    rfl
  rw [hread, takeInput_eq_command]

/-- A key stores in `in` only. -/
theorem key_eq_queues {beyond scancode : Byte} {m m' : KeyboardInput.Machine}
    (hstep : m.step beyond (.key scancode) = some m') :
    setQueues m.terminal (m'.terminal.cells .inBuffer) (m.terminal.cells .outBuffer) =
      m'.terminal := by
  have hrest : ∀ cells : ℤ → Byte, Function.update (Function.update m.terminal.cells .inBuffer
      cells) .outBuffer (m.terminal.cells .outBuffer) =
        Function.update m.terminal.cells .inBuffer cells := by
    intro cells
    rw [Function.update_eq_self_iff, Function.update_of_ne (by decide)]
  have heffect := KeyboardInput.step_key hstep
  split at heffect
  · rw [heffect, setQueues, hrest, Function.update_eq_self]
  · obtain ⟨i, -, hput⟩ := heffect
    rw [hput, setQueues, hrest, put_cells_self]
    rfl

/-! ## The loop that clears the command buffer -/

theorem small_of_clearCommand (hsize : t.bufferSize.toNat ≤ 2 ^ 64 - 2 ^ 31)
    (hall : t.clearCommand.All (Inside t.bufferSize)) : t.bufferSize.toNat < 2 ^ 31 := by
  by_contra hlarge
  have hreach : t.reach = 2 ^ 31 := min_eq_right (not_lt.mp hlarge)
  have hplace := (clearCommand_reaches hsize hall).1
  rw [hreach] at hplace
  exact absurd hplace (by decide)

/-- Once the counter has passed the cells of the buffer they are all zero. -/
theorem clearCommand_clears (hsmall : t.bufferSize.toNat < 2 ^ 31) :
    t.clearCommand.Holds anywhere fun t' =>
      ∀ position : ℕ, position < t.bufferSize.toNat → t'.cells .commandBuffer position = 0 := by
  rw [Terminal.clearCommand]
  refine holds_bind (forInt_holds (fun i current => current.bufferSize = t.bufferSize ∧
    ∀ position : ℕ, position < t.bufferSize.toNat → position < i.toNat →
      current.cells .commandBuffer position = 0) ?_
    ⟨rfl, fun _ _ hnone => absurd hnone (Nat.not_lt_zero _)⟩)
    (Q := fun stop => ∀ position : ℕ, position < t.bufferSize.toNat →
      stop.2.cells .commandBuffer position = 0) fun stop hclear => holds_pure hclear
  rintro i current ⟨hsame, hclear⟩
  have hbody : (current.write .commandBuffer i 0).Holds anywhere fun next =>
      next.bufferSize = t.bufferSize ∧ ∀ position : ℕ, position < t.bufferSize.toNat →
        position < (i + 1).toNat → next.cells .commandBuffer position = 0 := by
    refine holds_access trivial ⟨hsame, fun position hposition hbefore => ?_⟩
    rw [put_cell]
    split_ifs with hlast
    · rfl
    · exact hclear position hposition (by bv_omega)
  rw [hsame]
  by_cases hmore : i.signExtend 64 < t.bufferSize
  · rw [if_pos hmore]
    exact holds_pure hbody
  · rw [if_neg hmore]
    refine holds_bind (holds_anywhere _) fun chr _ => holds_pure ?_
    split_ifs
    · exact hbody
    · refine fun position hposition => hclear position hposition ?_
      by_cases hint : i.toNat < 2 ^ 31
      · rw [BitVec.lt_def, toNat_signExtend_of_lt hint] at hmore
        omega
      · omega

/-! ## The two halves -/

/-- The cells of the command buffer hold the line and zeros behind it, but for the last
one, which `init` does not clear. -/
structure Shows (t : Terminal) (line : List Byte) : Prop where
  size : t.bufferSize.toNat ≤ 2 ^ 64 - 2 ^ 31
  cell : ∀ position : ℕ, position + 1 < t.bufferSize.toNat →
    t.cells .commandBuffer position = line.getD position 0
  proper : ∀ chr ∈ line, chr ≠ 0

theorem Shows.stringIs (hshows : Shows t line) (hshort : line.length + 1 < t.bufferSize.toNat) :
    StringIs (t.cells .commandBuffer) line :=
  ⟨fun position hposition => hshows.cell position (by omega), hshows.proper⟩

theorem Shows.congr (hshows : Shows t line) (hsize : t'.bufferSize = t.bufferSize)
    (hcells : t'.cells .commandBuffer = t.cells .commandBuffer) : Shows t' line :=
  ⟨hsize ▸ hshows.size, by rw [hsize, hcells]; exact hshows.cell, hshows.proper⟩

theorem Shows.of_kept {buffers : List Buffer} (hshows : Shows t line) (hkept : Kept buffers t t')
    (hcommand : .commandBuffer ∉ buffers) : Shows t' line :=
  hshows.congr hkept.bufferSize (hkept.cells _ hcommand)

/-- Where the scan of the command buffer ends inside, it is behind the line. -/
theorem Shows.toNat_eq_length (hshows : Shows t line)
    (hshort : line.length + 1 < t.bufferSize.toNat) (hfound : Found t .commandBuffer ci)
    (hint : ci.toNat < 2 ^ 31) : ci.toNat = line.length := by
  have hcommand := hshows.stringIs hshort
  have hzero := hfound.zero
  rw [toInt_of_lt hint] at hzero
  apply le_antisymm
  · by_contra hpast
    exact hfound.filled _ (not_le.mp hpast) (by omega) hcommand.ends
  · by_contra hbefore
    exact hcommand.cell_ne (not_le.mp hbefore) hzero

/-- A character stored behind the line. -/
theorem Shows.append (hshows : Shows t line) (hchr : chr ≠ 0) (hci : ci.toNat = line.length)
    (hint : ci.toNat < 2 ^ 31) : Shows (t.put .commandBuffer ci chr) (line ++ [chr]) where
  size := hshows.size
  cell position hposition := by
    rw [put_cell, RewindQueue.getD_concat, ← hshows.cell position hposition, hci]
    exact if_congr (and_iff_left (hci ▸ hint)) rfl rfl
  proper other hother := by
    rcases List.mem_append.mp hother with hline | hlast
    · exact hshows.proper other hline
    · rwa [List.mem_singleton.mp hlast]

theorem echo_shows (hshows : Shows t line) (hshort : line.length + 1 < t.bufferSize.toNat)
    (hchr : chr ≠ 0) (hfound : Found t .commandBuffer ci) {size : Word64}
    (hall : (t.echo ti ci chr).All (Inside size)) :
    (t.echo ti ci chr).Holds anywhere fun t' => Shows t' (line ++ [chr]) := by
  rw [Terminal.echo, all_bind] at hall
  have hplace := (all_access _ _).mp (hall.2 (t.put .textBuffer ti chr) rfl)
  have hint : ci.toNat < 2 ^ 31 := by
    have hnonneg : 0 ≤ ci.toInt := hplace.1
    rw [BitVec.toInt_eq_toNat_cond] at hnonneg
    have := ci.isLt
    split_ifs at hnonneg <;> omega
  have hend := hshows.toNat_eq_length hshort hfound hint
  refine holds_bind (holds_access (Q := (· = t.put .textBuffer ti chr)) trivial rfl)
    fun shown hshown => holds_access trivial ?_
  subst hshown
  have hkept : Kept [.textBuffer] t (t.put .textBuffer ti chr) :=
    kept_put ti chr (List.mem_singleton_self _)
  exact (hshows.of_kept hkept (by decide)).append hchr hend hint

theorem beforeCommand_kept (t : Terminal) :
    (beforeCommand t).Holds anywhere (Kept [.textBuffer] t) :=
  holds_bind (holds_anywhere _) fun ti _ => holds_bind (holds_anywhere _) fun _ _ =>
    newLine_kept t ti (List.mem_singleton_self _)

theorem fromCommand_shows (hsize : t.bufferSize.toNat ≤ 2 ^ 64 - 2 ^ 31)
    (hall : (fromCommand t).All (Inside t.bufferSize))
    (hresult : (fromCommand t).result = some t') : Shows t' [] := by
  rw [fromCommand, runCommand, if_pos rfl, result_bind, Option.bind_eq_some_iff] at hresult
  rw [fromCommand, runCommand, if_pos rfl, all_bind] at hall
  obtain ⟨printed, hprint, hresult⟩ := hresult
  have hrest := hall.2 printed hprint
  obtain rfl := (print_eq t (by decide)).2 printed hprint
  rw [result_bind, Option.bind_eq_some_iff] at hresult
  rw [all_bind] at hrest
  obtain ⟨cleared, hclear, hresult⟩ := hresult
  have hsmall := small_of_clearCommand hsize hrest.1
  have hzero := (clearCommand_clears hsmall).2 cleared hclear
  have hkept := (clearCommand_kept printed (List.mem_singleton_self _)).2 cleared hclear
  have hcleared : Shows cleared [] :=
    ⟨hkept.bufferSize ▸ hsize, fun position hposition => hzero position
      (by rw [hkept.bufferSize] at hposition; omega), fun _ hnone => absurd hnone List.not_mem_nil⟩
  exact Option.some.inj hresult ▸ hcleared.congr rfl rfl

theorem takeInput_shows (hshows : Shows t line) (hshort : line.length + 1 < t.bufferSize.toNat)
    (hchr : chr ≠ 0) (hall : (t.takeInput chr).All (Inside t.bufferSize))
    (hresult : (t.takeInput chr).result = some t') : Shows t' (lineAfter line chr) := by
  rw [lineAfter, if_neg hchr]
  split_ifs with hfeed
  · rw [hfeed, takeInput_eq_command, all_bind] at hall
    rw [hfeed, takeInput_eq_command, result_bind, Option.bind_eq_some_iff] at hresult
    obtain ⟨padded, hpadded, hresult⟩ := hresult
    have hkept := (beforeCommand_kept t).2 padded hpadded
    have hrest := hall.2 padded hpadded
    rw [← hkept.bufferSize] at hrest
    exact fromCommand_shows (hkept.bufferSize ▸ hshows.size) hrest hresult
  · rw [Terminal.takeInput, result_bind, Option.bind_eq_some_iff] at hresult
    rw [Terminal.takeInput, all_bind] at hall
    obtain ⟨ti, hti, hresult⟩ := hresult
    have hall := hall.2 ti hti
    rw [result_bind, Option.bind_eq_some_iff] at hresult
    rw [all_bind] at hall
    obtain ⟨ci, hci, hresult⟩ := hresult
    have hall := hall.2 ci hci
    rw [if_neg hfeed, result_bind, Option.bind_eq_some_iff] at hresult
    rw [if_neg hfeed, all_bind] at hall
    obtain ⟨shown, hshown, hresult⟩ := hresult
    have hfound := (scan_found t .commandBuffer).2 ci hci
    have hline := (echo_shows hshows hshort hchr hfound hall.1).2 shown hshown
    exact Option.some.inj hresult ▸ hline.congr rfl rfl

/-- Serving `out` leaves the command buffer as it is. -/
theorem takeOutput_kept (t : Terminal) (chr : Byte) : (t.takeOutput chr).Holds anywhere fun t' =>
    t'.bufferSize = t.bufferSize ∧ t'.cells .commandBuffer = t.cells .commandBuffer := by
  rw [Terminal.takeOutput]
  refine holds_bind (holds_anywhere _) fun ti _ => ?_
  refine holds_bind (Q := Kept [.textBuffer] t) ?_ fun shown hkept => ?_
  · split_ifs
    · exact newLine_kept t ti (List.mem_singleton_self _)
    · exact write_kept ti chr (List.mem_singleton_self _)
  · refine holds_bind (holds_access (Q := (· = shown.put .outBuffer shown.io 0)) trivial rfl)
      fun taken htaken => holds_pure ?_
    subst htaken
    exact ⟨hkept.bufferSize, hkept.cells .commandBuffer (by decide)⟩

/-! ## Runs -/

theorem inputHalf_shows (hshows : Shows t line) (hshort : line.length + 1 < t.bufferSize.toNat)
    (hall : (inputHalf t).All (Inside t.bufferSize)) (hresult : (inputHalf t).result = some t') :
    Shows t' (lineAfter line t.nextInput) := by
  have hidle : Shows { t with work := false } line := hshows.congr rfl rfl
  rw [inputHalf, handleInput_result] at hresult
  by_cases hzero : t.nextInput = 0
  · rw [if_pos (show Terminal.nextInput { t with work := false } = 0 from hzero)] at hresult
    rw [lineAfter, if_pos hzero]
    exact Option.some.inj hresult ▸ hidle.congr rfl rfl
  · rw [if_neg (show Terminal.nextInput { t with work := false } ≠ 0 from hzero)] at hresult
    rw [inputHalf, Terminal.handleInput, all_bind] at hall
    have htake := hall.2 t.nextInput rfl
    rw [if_neg hzero] at htake
    exact takeInput_shows hidle hshort hzero htake hresult

theorem outputHalf_shows (hshows : Shows t line) (hresult : (outputHalf t).result = some t') :
    Shows t' line := by
  rw [outputHalf, result_bind, handleOutput_result, Option.bind_eq_some_iff] at hresult
  obtain ⟨served, hserved, hresult⟩ := hresult
  have hkept : served.bufferSize = t.bufferSize ∧
      served.cells .commandBuffer = t.cells .commandBuffer := by
    split_ifs at hserved
    · exact Option.some.inj hserved ▸ ⟨rfl, rfl⟩
    · exact (takeOutput_kept t t.nextOutput).2 served hserved
  exact Option.some.inj hresult ▸ hshows.congr hkept.1 hkept.2

theorem shows_step {event : Event} (hshows : Shows h.terminal h.line)
    (hcond : Short h ∧ StaysInside h event) (hstep : h.step event = some h') :
    Shows h'.terminal h'.line := by
  obtain ⟨terminal, hcall, rfl⟩ := Option.map_eq_some_iff.mp hstep
  cases event with
  | queues inCells outCells => exact Option.some.inj hcall ▸ hshows.congr rfl rfl
  | input => exact inputHalf_shows hshows hcond.1 hcond.2 hcall
  | output => exact outputHalf_shows hshows hcall

theorem shows_init (frameBuffer : TextRenderer.Framebuffer) (pool : Buffer → ℤ → Byte) :
    Shows (.init frameBuffer pool) [] := by
  have hlaid := laid_init frameBuffer pool
  exact ⟨hlaid.size, fun _ hposition => init_cells_eq_zero frameBuffer pool _ hposition,
    fun _ hnone => absurd hnone List.not_mem_nil⟩

/-- In every run from `init` that stays inside the buffers and whose lines are short, the
command buffer that `runCommand` is given for a `'\n'` holds exactly the characters taken
since the last one, as a string. -/
theorem command_is_line (frameBuffer : TextRenderer.Framebuffer) (pool : Buffer → ℤ → Byte)
    {events : List Event} {buffer : ℤ → Byte}
    (hinside : Meets History.step StaysInside (.start (.init frameBuffer pool)) events)
    (hshort : Throughout History.step Short (.start (.init frameBuffer pool)) events)
    (hrun : run History.step (.start (.init frameBuffer pool)) events = some h)
    (hpassed : passed h.terminal = some buffer) : StringIs buffer h.line := by
  have hshows : Shows h.terminal h.line := by
    refine run_meets_invariant (fun h => Shows h.terminal h.line) (shows_init frameBuffer pool) ?_
      (hshort.meets hinside) hrun
    exact fun _ _ _ hshows hcond hstep => shows_step hshows hcond hstep
  have hlast : Short h := hshort.final hrun
  rw [passed] at hpassed
  split_ifs at hpassed
  obtain ⟨padded, hpadded, rfl⟩ := Option.map_eq_some_iff.mp hpassed
  have hidle : Shows { h.terminal with work := false } h.line := hshows.congr rfl rfl
  have hkept := (beforeCommand_kept _).2 padded hpadded
  refine (hidle.of_kept hkept (by decide)).stringIs ?_
  rw [hkept.bufferSize]
  exact hlast

instance (size : Word64) (place : Access) : Decidable (Inside size place) :=
  inferInstanceAs (Decidable (_ ∧ (_ ∨ _)))

instance (h : History) : Decidable (Short h) := inferInstanceAs (Decidable (_ < _))

instance (h : History) (event : Event) : Decidable (StaysInside h event) :=
  inferInstanceAs (Decidable (Logged.All _ _))

/-- A queue with these characters. -/
def held (chars : List Byte) (position : ℤ) : Byte :=
  if 0 ≤ position then chars.getD position.toNat 0 else 0

/-- Three rows of four characters; the cells that `init` does not clear hold `z`. -/
def screen : Terminal :=
  .init ⟨0, 0, 40, 64, 0⟩ fun _ position => if position = 11 then 0x7A else 0

/-- The line `a`, with an `x` printed before it ends, and the line `bc` up to its end. -/
def twoLines : List Event :=
  [.queues (held (literal "a\n")) (held (literal "x")), .input, .output, .input, .input,
    .queues (held (literal "bc\n")) (held []), .input, .output, .input]

/-- The second line is handed over as `bc`. -/
theorem command_is_line_second :
    ∃ h buffer, run History.step (.start screen) twoLines = some h ∧ h.line = literal "bc" ∧
      passed h.terminal = some buffer ∧ StringIs buffer h.line := by
  have hfinal : (run History.step (.start screen) twoLines).map (fun h =>
      (h.line, (passed h.terminal).isSome)) = some (literal "bc", true) := by
    decide +kernel
  obtain ⟨h, hrun, hstate⟩ := Option.map_eq_some_iff.mp hfinal
  simp only [Prod.mk.injEq] at hstate
  obtain ⟨buffer, hpassed⟩ := Option.isSome_iff_exists.mp hstate.2
  exact ⟨h, buffer, hrun, hstate.1, hpassed,
    command_is_line _ _ (by decide +kernel) (by decide +kernel) hrun hpassed⟩

end RedX.CommandLine
