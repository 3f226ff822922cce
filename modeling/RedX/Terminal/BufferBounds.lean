import RedX.Terminal.Keyboard

/-!
# Bounds of the text and command buffers

The handler stays inside `textBuffer` and `commandBuffer` exactly when it has no
line to end and both buffers still hold a terminating zero.  A `'\n'` from the
keyboard always leaves `commandBuffer`: the loop that clears it goes on until it
has read a cell behind the end.
-/

namespace RedX.BufferBounds

open RedX.MachineWord
open RedX.PartialRun
open RedX.TextRenderer
open RedX.AccessLog
open RedX.TextTerminal
open RedX.KeyboardInput

/-- An access to the text or command buffer lies in `[0, size)`. -/
def InBounds (size : Word64) (place : Access) : Prop :=
  place.1 = .textBuffer ∨ place.1 = .commandBuffer → 0 ≤ place.2 ∧ place.2 < size.toNat

/-- The step makes no access outside; a key touches neither buffer. -/
def StaysInside (m : Machine) : Event → Prop
  | .key _ => True
  | .handler => m.terminal.handler.All (InBounds m.terminal.bufferSize)

/-- The condition on the state before a call of `handler`: a character of `in` is no
line feed and finds a terminating zero in both buffers, a character of `out` comes
alone, is no line feed and finds one in the text buffer. -/
def Fits (m : Machine) : Event → Prop
  | .key _ => True
  | .handler =>
      (m.terminal.nextInput ≠ 0 → m.terminal.nextInput ≠ lineFeed ∧
        m.terminal.HasRoom .textBuffer ∧ m.terminal.HasRoom .commandBuffer) ∧
      (m.terminal.nextOutput ≠ 0 → m.terminal.nextInput = 0 ∧
        m.terminal.nextOutput ≠ lineFeed ∧ m.terminal.HasRoom .textBuffer)

instance (t : Terminal) (buffer : Buffer) : Decidable (t.HasRoom buffer) :=
  inferInstanceAs (Decidable (∃ position < t.reach, t.cells buffer position = 0))

instance (m : Machine) : ∀ event, Decidable (Fits m event)
  | .key _ => isTrue trivial
  | .handler => inferInstanceAs (Decidable ((_ → _ ∧ _ ∧ _) ∧ (_ → _ ∧ _ ∧ _)))

variable {t t' : Terminal} {buffer : Buffer} {size : Word64}

theorem inBounds_of_other {i : ℤ} (htext : buffer ≠ .textBuffer)
    (hcommand : buffer ≠ .commandBuffer) : InBounds size (buffer, i) :=
  fun hshown => (hshown.elim htext hcommand).elim

theorem inBounds_of_lt_reach {position : ℕ} (hposition : position < t.reach) :
    InBounds t.bufferSize (buffer, position) :=
  fun _ => ⟨Int.natCast_nonneg _, Int.ofNat_lt.mpr (lt_of_lt_of_le hposition (min_le_left _ _))⟩

theorem firstZero_inBounds {i : Word32} (hfirst : t.FirstZero buffer i) :
    InBounds t.bufferSize (buffer, i.toInt) := by
  rw [toInt_of_lt_reach hfirst.inside]
  exact inBounds_of_lt_reach hfirst.inside

theorem not_inBounds_reach (hshown : buffer = .textBuffer ∨ buffer = .commandBuffer) :
    ¬ InBounds t.bufferSize (buffer, (BitVec.ofNat 32 t.reach).toInt) :=
  fun hinside => reach_outside (hinside hshown)

/-! ## The scans -/

/-- A scan that stays inside has met a terminating zero. -/
theorem hasRoom_of_scan (hshown : buffer = .textBuffer ∨ buffer = .commandBuffer)
    (hall : (t.scan buffer).All (InBounds t.bufferSize)) : t.HasRoom buffer := by
  by_contra hfull
  exact not_inBounds_reach hshown (scan_reaches hfull hall)

/-- What follows a scan inside the buffers is done with the first zero. -/
theorem scan_bind_inBounds_iff {α : Type} {next : Word32 → Logged Access α}
    (hshown : buffer = .textBuffer ∨ buffer = .commandBuffer) :
    (t.scan buffer >>= next).All (InBounds t.bufferSize) ↔
      ∃ i, t.FirstZero buffer i ∧ (next i).All (InBounds t.bufferSize) := by
  rw [all_bind]
  constructor
  · rintro ⟨hscan, hnext⟩
    obtain ⟨i, hresult, hfirst⟩ := scan_finds (hasRoom_of_scan hshown hscan)
    exact ⟨i, hfirst, hnext i hresult⟩
  · rintro ⟨i, hfirst, hnext⟩
    have hroom := hfirst.hasRoom
    refine ⟨(scan_holds hroom fun _ hposition => inBounds_of_lt_reach hposition).1, ?_⟩
    intro i' hresult
    obtain ⟨found, hfound, hsame⟩ := scan_finds hroom
    rw [Option.some.inj (hresult.symm.trans hfound), hsame.unique hfirst]
    exact hnext

theorem write_other_inBounds {i : Word32} {chr : Byte} (htext : buffer ≠ .textBuffer)
    (hcommand : buffer ≠ .commandBuffer) : (t.write buffer i chr).All (InBounds size) :=
  (all_access _ _).mpr (inBounds_of_other htext hcommand)

/-! ## The line feed -/

theorem clearCommand_leaves (hsize : t.bufferSize.toNat ≤ 2 ^ 64 - 2 ^ 31) :
    ¬ t.clearCommand.All (InBounds t.bufferSize) :=
  fun hall => not_inBounds_reach (.inr rfl) (clearCommand_reaches hsize hall)

theorem enterLine_leaves (hwidth : t.width ≠ 0) (hsize : t.bufferSize.toNat ≤ 2 ^ 64 - 2 ^ 31)
    (ti : Word32) : ¬ (t.enterLine ti).All (InBounds t.bufferSize) := by
  intro hall
  obtain ⟨padded, hpadded⟩ := newLine_returns hwidth ti
  have hkept := (newLine_kept t ti (List.mem_singleton_self _)).2 padded hpadded
  rw [← hkept.bufferSize] at hsize hall
  have hfirst : cString "Shell: error, no such file or command\n" 0 ≠ 0 := by decide
  obtain ⟨printed, hprinted⟩ := print_returns hsize hfirst
  obtain rfl := (print_eq padded hfirst).2 printed hprinted
  rw [Terminal.enterLine, all_bind] at hall
  have hshell := hall.2 printed hpadded
  rw [runCommand, if_pos rfl, all_bind] at hshell
  exact clearCommand_leaves hsize (hshell.2 printed hprinted)

/-! ## One character -/

theorem takeInput_inBounds_iff (hwidth : t.width ≠ 0)
    (hsize : t.bufferSize.toNat ≤ 2 ^ 64 - 2 ^ 31) (chr : Byte) :
    (t.takeInput chr).All (InBounds t.bufferSize) ↔
      chr ≠ lineFeed ∧ t.HasRoom .textBuffer ∧ t.HasRoom .commandBuffer := by
  rw [Terminal.takeInput, scan_bind_inBounds_iff (.inl rfl)]
  constructor
  · rintro ⟨ti, htext, hrest⟩
    rw [scan_bind_inBounds_iff (.inr rfl)] at hrest
    obtain ⟨ci, hcommand, hshow⟩ := hrest
    refine ⟨fun hlast => ?_, htext.hasRoom, hcommand.hasRoom⟩
    rw [if_pos hlast, all_bind] at hshow
    exact enterLine_leaves hwidth hsize ti hshow.1
  · rintro ⟨hlast, htext, hcommand⟩
    obtain ⟨ti, _, hti⟩ := scan_finds htext
    obtain ⟨ci, _, hci⟩ := scan_finds hcommand
    refine ⟨ti, hti, (scan_bind_inBounds_iff (.inr rfl)).mpr ⟨ci, hci, ?_⟩⟩
    rw [if_neg hlast, Terminal.echo, all_bind, all_bind]
    refine ⟨⟨(all_access _ _).mpr (firstZero_inBounds hti),
      fun _ _ => (all_access _ _).mpr (firstZero_inBounds hci)⟩, ?_⟩
    intro current _
    rw [all_bind]
    exact ⟨write_other_inBounds (by decide) (by decide), fun _ _ => all_pure _⟩

/-- In a buffer of one cell the first zero is the cell 0. -/
theorem firstZero_eq_zero {i : Word32} (hfirst : t.FirstZero buffer i)
    (hone : t.bufferSize.toNat = 1) : i = 0 := by
  have hinside := hfirst.inside
  have hreach : t.reach ≤ t.bufferSize.toNat := min_le_left _ _
  apply BitVec.eq_of_toNat_eq
  rw [show (0 : Word32).toNat = 0 from rfl]
  omega

/-- `ti - 1` for an empty text is outside. -/
theorem newLine_leaves : ¬ (t.newLine 0).All (InBounds size) := by
  intro hall
  rw [Terminal.newLine, all_bind] at hall
  obtain ⟨_, _, hfirst⟩ := forInt_reaches (fun _ => True) trivial
    (fun _ hdone => absurd hdone (Nat.not_lt_zero _))
    (show 0 < passes by unfold passes; omega) hall.1
  rw [counter_zero, all_bind] at hfirst
  have hplace := (all_access _ _).mp hfirst.1 (.inl rfl)
  exact absurd hplace.1 (show ¬ (0 : ℤ) ≤ (BitVec.ofNat 32 0 - 1).toInt by decide)

theorem takeOutput_inBounds_iff (hone : t.bufferSize.toNat = 1) (chr : Byte) :
    (t.takeOutput chr).All (InBounds t.bufferSize) ↔
      chr ≠ lineFeed ∧ t.HasRoom .textBuffer := by
  rw [Terminal.takeOutput, scan_bind_inBounds_iff (.inl rfl)]
  constructor
  · rintro ⟨ti, htext, hshow⟩
    refine ⟨fun hlast => ?_, htext.hasRoom⟩
    rw [if_pos hlast, firstZero_eq_zero htext hone, all_bind] at hshow
    exact newLine_leaves hshow.1
  · rintro ⟨hlast, htext⟩
    obtain ⟨ti, _, hti⟩ := scan_finds htext
    refine ⟨ti, hti, ?_⟩
    rw [if_neg hlast, all_bind]
    refine ⟨(all_access _ _).mpr (firstZero_inBounds hti), fun current _ => ?_⟩
    rw [all_bind]
    exact ⟨write_other_inBounds (by decide) (by decide), fun _ _ => all_pure _⟩

/-- After a character is shown in a text of one cell, the text has no zero left. -/
theorem takeInput_fills (hone : t.bufferSize.toNat = 1) {chr : Byte} (hchr : chr ≠ 0)
    (hlast : chr ≠ lineFeed) (htext : t.HasRoom .textBuffer)
    (hcommand : t.HasRoom .commandBuffer) :
    ∃ t', (t.takeInput chr).result = some t' ∧ t'.bufferSize = t.bufferSize ∧
      ¬ t'.HasRoom .textBuffer := by
  obtain ⟨ti, hti, hfirst⟩ := scan_finds htext
  obtain ⟨ci, hci, _⟩ := scan_finds hcommand
  obtain rfl := firstZero_eq_zero hfirst hone
  let shown := (t.put .textBuffer 0 chr).put .commandBuffer ci chr
  let t' := shown.put .inBuffer shown.ii 0
  refine ⟨{ t' with ii := t'.ii + 1, work := true }, ?_, rfl, ?_⟩
  · rw [Terminal.takeInput, result_bind, hti, Option.bind_some, result_bind, hci,
      Option.bind_some, if_neg hlast]
    rfl
  · rintro ⟨position, hposition, hzero⟩
    have hreach : position < t.bufferSize.toNat := lt_of_lt_of_le hposition (min_le_left _ _)
    obtain rfl : position = 0 := by omega
    exact hchr hzero

/-! ## A call of `handler` -/

/-- What `init` sets up and no step changes: a row has a character, no index that passes
the bounds check is negative, and `out` is empty unless the buffers have one cell, which
`init` does not clear. -/
structure Sound (t : Terminal) : Prop where
  width : t.width ≠ 0
  size : t.bufferSize.toNat ≤ 2 ^ 64 - 2 ^ 31
  output : t.bufferSize.toNat = 1 ∨ (t.io = 0 ∧ t.cells .outBuffer 0 = 0)

theorem Sound.nextOutput (hsound : Sound t) (hsome : t.nextOutput ≠ 0) :
    t.bufferSize.toNat = 1 := by
  rcases hsound.output with hone | ⟨hio, hzero⟩
  · exact hone
  · exact absurd (show t.nextOutput = 0 by rw [Terminal.nextOutput, hio]; exact hzero) hsome

theorem read_bind_inBounds_iff {α : Type} {i : Word32} {next : Byte → Logged Access α}
    (htext : buffer ≠ .textBuffer) (hcommand : buffer ≠ .commandBuffer) :
    (t.read buffer i >>= next).All (InBounds size) ↔
      (next (t.cells buffer i.toInt)).All (InBounds size) := by
  rw [all_bind]
  constructor
  · rintro ⟨_, hnext⟩
    exact hnext _ rfl
  · intro hnext
    refine ⟨(all_access _ _).mpr (inBounds_of_other htext hcommand), fun chr hchr => ?_⟩
    exact Option.some.inj hchr ▸ hnext

theorem handleInput_inBounds_iff : t.handleInput.All (InBounds size) ↔
    (t.nextInput ≠ 0 → (t.takeInput t.nextInput).All (InBounds size)) := by
  rw [Terminal.handleInput, read_bind_inBounds_iff (by decide) (by decide),
    show t.cells .inBuffer t.ii.toInt = t.nextInput from rfl]
  by_cases hzero : t.nextInput = 0
  · simp [hzero]
  · rw [if_neg hzero]
    exact (imp_iff_right hzero).symm

theorem handleOutput_inBounds_iff : t.handleOutput.All (InBounds size) ↔
    (t.nextOutput ≠ 0 → (t.takeOutput t.nextOutput).All (InBounds size)) := by
  rw [Terminal.handleOutput, read_bind_inBounds_iff (by decide) (by decide),
    show t.cells .outBuffer t.io.toInt = t.nextOutput from rfl]
  by_cases hzero : t.nextOutput = 0
  · simp [hzero]
  · rw [if_neg hzero]
    exact (imp_iff_right hzero).symm

/-- A call of `handler` stays inside exactly when its characters fit. -/
theorem handler_inBounds_iff (hsound : Sound t) : t.handler.All (InBounds t.bufferSize) ↔
    (t.nextInput ≠ 0 → t.nextInput ≠ lineFeed ∧
      t.HasRoom .textBuffer ∧ t.HasRoom .commandBuffer) ∧
    (t.nextOutput ≠ 0 → t.nextInput = 0 ∧ t.nextOutput ≠ lineFeed ∧ t.HasRoom .textBuffer) := by
  let idle : Terminal := { t with work := false }
  have hinput : idle.handleInput.All (InBounds t.bufferSize) ↔ (t.nextInput ≠ 0 →
      t.nextInput ≠ lineFeed ∧ t.HasRoom .textBuffer ∧ t.HasRoom .commandBuffer) :=
    handleInput_inBounds_iff.trans
      (imp_congr_right fun _ => takeInput_inBounds_iff (t := idle) hsound.width hsound.size _)
  have hresult : idle.handleInput.result = if t.nextInput = 0 then some { idle with ii := 0 }
      else (idle.takeInput t.nextInput).result := handleInput_result
  have houtput : ∀ t', idle.handleInput.result = some t' → t'.nextOutput = t.nextOutput :=
    fun _ ht' => nextOutput_handleInput (t := idle) ht'
  rw [Terminal.handler, all_bind]
  constructor
  · rintro ⟨hfirst, hrest⟩
    refine ⟨hinput.mp hfirst, fun hsome => ?_⟩
    have hone := hsound.nextOutput hsome
    by_cases hin : t.nextInput = 0
    · rw [if_pos hin] at hresult
      have hout := hrest _ hresult
      rw [all_bind, handleOutput_inBounds_iff, houtput _ hresult] at hout
      exact ⟨hin, (takeOutput_inBounds_iff (t := { idle with ii := 0 }) hone _).mp (hout.1 hsome)⟩
    · rw [if_neg hin] at hresult
      obtain ⟨hlast, htext, hcommand⟩ := hinput.mp hfirst hin
      obtain ⟨t', ht', hsize, hfull⟩ := takeInput_fills (t := idle) hone hin hlast htext hcommand
      have hout := hrest t' (hresult.trans ht')
      rw [all_bind, handleOutput_inBounds_iff, houtput t' (hresult.trans ht')] at hout
      have hshown := hout.1 hsome
      rw [show t.bufferSize = t'.bufferSize from hsize.symm] at hshown hone
      exact absurd ((takeOutput_inBounds_iff hone _).mp hshown).2 hfull
  · rintro ⟨hfits, hout⟩
    refine ⟨hinput.mpr hfits, fun t' ht' => ?_⟩
    rw [all_bind, handleOutput_inBounds_iff, houtput t' ht']
    refine ⟨fun hsome => ?_, fun _ _ => all_pure _⟩
    obtain ⟨hin, hshown⟩ := hout hsome
    rw [if_pos hin, ht'] at hresult
    obtain rfl := Option.some.inj hresult
    exact (takeOutput_inBounds_iff (t := { idle with ii := 0 }) (hsound.nextOutput hsome) _).mpr
      hshown

/-! ## Runs from `init` -/

theorem sound_init {frameBuffer : Framebuffer} {pool : Buffer → ℤ → Byte}
    (hfits : 1 ≤ (Terminal.init frameBuffer pool).width ∧
      1 ≤ (Terminal.init frameBuffer pool).height) : Sound (.init frameBuffer pool) := by
  obtain ⟨hwidth, hheight⟩ := hfits
  let t := Terminal.init frameBuffer pool
  change (1 : Word64).toNat ≤ t.width.toNat at hwidth
  change (1 : Word64).toNat ≤ t.height.toNat at hheight
  obtain ⟨hsize, hle⟩ : t.bufferSize.toNat = t.width.toNat * t.height.toNat ∧ _ :=
    toNat_bufferSize_init frameBuffer pool
  have hpositive : 1 ≤ t.bufferSize.toNat := by
    rw [hsize]
    exact Nat.mul_pos hwidth hheight
  refine ⟨fun hzero => ?_, show t.bufferSize.toNat ≤ _ from hle.trans (by decide), ?_⟩
  · rw [show t.width = 0 from hzero] at hwidth
    exact absurd hwidth (by decide)
  · by_cases hone : t.bufferSize.toNat = 1
    · exact .inl hone
    · have hcount : 0 + 1 < t.bufferSize.toNat := by omega
      exact .inr ⟨rfl, init_cells_eq_zero frameBuffer pool _ hcount⟩

theorem sound_step {beyond : Byte} {m m' : Machine} {event : Event} (hsound : Sound m.terminal)
    (hstep : m.step beyond event = some m') : Sound m'.terminal := by
  cases event with
  | handler =>
      have hout := (handler_drains (step_handler hstep)).2
      refine ⟨hout.width ▸ hsound.width, hout.bufferSize ▸ hsound.size, ?_⟩
      rw [hout.bufferSize]
      refine hsound.output.imp_right ?_
      rintro ⟨hio, hzero⟩
      have hqueue := hout.queue
      rw [hio, drain, show BitVec.toInt (0 : Word32) = 0 from rfl, if_pos hzero,
        Prod.mk.injEq] at hqueue
      exact ⟨hqueue.2, hqueue.1 ▸ hzero⟩
  | key scancode =>
      have heffect := step_key hstep
      cases henqueues : m.enqueues beyond (.key scancode) with
      | none =>
          rw [henqueues] at heffect
          exact heffect ▸ hsound
      | some chr =>
          rw [henqueues] at heffect
          obtain ⟨i, _, hput⟩ := heffect
          rw [hput]
          exact ⟨hsound.width, hsound.size, hsound.output⟩

/-- In every run from `init` all accesses to the text and command buffers stay inside
exactly when every call of `handler` fits. -/
theorem stays_inside_iff (beyond : Byte) (frameBuffer : Framebuffer) (pool : Buffer → ℤ → Byte)
    (keyboard : Keyboard) (events : List Event)
    (hfits : 1 ≤ (Terminal.init frameBuffer pool).width ∧
      1 ≤ (Terminal.init frameBuffer pool).height) :
    Meets (Machine.step beyond) StaysInside ⟨.init frameBuffer pool, keyboard⟩ events ↔
      Meets (Machine.step beyond) Fits ⟨.init frameBuffer pool, keyboard⟩ events := by
  apply meets_congr (fun m => Sound m.terminal) (sound_init hfits)
  · exact fun _ _ _ hsound hstep => sound_step hsound hstep
  · intro m event hsound
    cases event with
    | key _ => exact Iff.rfl
    | handler => exact handler_inBounds_iff hsound

/-- Two characters on a small screen fit. -/
theorem stays_inside_two_characters :
    Meets (Machine.step 0) StaysInside eightCells
      [.key 0x1E, .handler, .key 0x30, .handler, .handler] :=
  (stays_inside_iff 0 _ _ _ _ (by decide +kernel)).mpr (by decide +kernel)

/-- Enter on an empty line: the handler accesses `textBuffer[-1]` and `commandBuffer[8]`, the
cells before and behind buffers of eight cells. -/
theorem enter_leaves_buffers :
    (1 ≤ eightCells.terminal.width ∧ 1 ≤ eightCells.terminal.height) ∧
      (∃ m, eightCells.step 0 (.key Enter) = some m ∧
        (.textBuffer, -1) ∈ m.terminal.handler.log ∧
        (.commandBuffer, 8) ∈ m.terminal.handler.log) ∧
      ¬ Meets (Machine.step 0) StaysInside eightCells [.key Enter, .handler] := by
  have hlog : (eightCells.step 0 (.key Enter)).map (fun m =>
      (m.terminal.bufferSize, decide ((.textBuffer, -1) ∈ m.terminal.handler.log),
        decide ((.commandBuffer, 8) ∈ m.terminal.handler.log))) = some (8, true, true) := by
    decide +kernel
  obtain ⟨m, hstep, hm⟩ := Option.map_eq_some_iff.mp hlog
  simp only [Prod.mk.injEq, decide_eq_true_eq] at hm
  obtain ⟨hsize, htext, hcommand⟩ := hm
  refine ⟨by decide +kernel, ⟨m, hstep, htext, hcommand⟩, fun hmeets => ?_⟩
  have hplace := ((hmeets.2 m hstep).1 _ hcommand (.inr rfl)).2
  rw [hsize] at hplace
  exact absurd hplace (by decide)

end RedX.BufferBounds
