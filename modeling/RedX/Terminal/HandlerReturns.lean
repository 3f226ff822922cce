import RedX.Terminal.CommandLine
import RedX.Terminal.TypedText

/-!
# The calls of `handler` return

The scans of `handler` have no bound, and the loop that clears the command buffer goes on
behind its end up to a zero.  While the text fits each of them finds its zero in the pool, so
every call returns and no page fault comes of it.  The handler then reaches every character
of `in`, however many arrive in the meantime.
-/

namespace RedX.HandlerReturns

open RedX.MachineWord
open RedX.PartialRun
open RedX.RewindQueue
open RedX.AccessLog
open RedX.RowText
open RedX.TextTerminal
open RedX.KeyboardInput
open RedX.InputQueue
open RedX.PoolPages
open RedX.OutputQueue (Idle)
open RedX.LineEnd (put_cell)
open RedX.CommandLine (Shows clearCommand_clears)
open RedX.Delivery
open RedX.TypedText

/-- The pool of the command buffer has a zero behind the buffer. -/
structure Stops (t : Terminal) (stop : ℕ) : Prop where
  behind : t.bufferSize.toNat ≤ stop
  inside : stop < poolBytes t.bufferSize
  zero : t.cells .commandBuffer stop = 0

/-- The command buffer holds a line that is not longer than the text, and clearing it stops in
its pool. -/
structure Commands (t : Terminal) (text : List Byte) : Prop where
  line : ∃ line, Shows t line ∧ line.length ≤ text.length
  stop : ∃ stop, Stops t stop

variable {t t' : Terminal} {text ahead behind : List Byte} {last chr : Byte} {buffer : Buffer}
  {ti ci i : Word32} {stop : ℕ}

theorem Stops.congr (hstops : Stops t stop) (hsize : t'.bufferSize = t.bufferSize)
    (hzero : t'.cells .commandBuffer stop = 0) : Stops t' stop :=
  ⟨hsize ▸ hstops.behind, hsize ▸ hstops.inside, hzero⟩

theorem Commands.congr (hcommands : Commands t text) (hsize : t'.bufferSize = t.bufferSize)
    (hcells : t'.cells .commandBuffer = t.cells .commandBuffer) : Commands t' text := by
  obtain ⟨⟨line, hshows, hle⟩, stop, hstops⟩ := hcommands
  exact ⟨⟨line, hshows.congr hsize hcells, hle⟩, stop, hstops.congr hsize (hcells ▸ hstops.zero)⟩

/-! ## The searches and loops -/

theorem scan_total (hsmall : t.bufferSize.toNat < 2 ^ 31) (hroom : t.HasRoom buffer) :
    (t.scan buffer).Total (InPool t.bufferSize) (t.FirstZero buffer) :=
  ⟨(scan_holds hroom fun _ => inPool_of_lt_reach hsmall).1, scan_finds hroom⟩

theorem findFree_total (hsmall : t.bufferSize.toNat < 2 ^ 31) (hroom : t.HasRoom buffer) :
    (t.findFree buffer).Total (InPool t.bufferSize) (t.FirstZero buffer) :=
  ⟨(findFree_holds hroom fun _ => inPool_of_lt_reach hsmall).1, findFree_finds hroom⟩

/-- The first zero comes behind the cells that are filled. -/
theorem toNat_eq_of_firstZero {count : ℕ} (hfirst : t.FirstZero buffer i)
    (hzero : t.cells buffer count = 0) (hfilled : ∀ position < count, t.cells buffer position ≠ 0) :
    i.toNat = count := by
  rcases lt_trichotomy i.toNat count with hbefore | hsame | hpast
  · exact absurd hfirst.zero (hfilled _ hbefore)
  · exact hsame
  · exact absurd hzero (hfirst.before _ hpast)

theorem inPool_of_firstZero (hsmall : t.bufferSize.toNat < 2 ^ 31)
    (hfirst : t.FirstZero buffer i) : InPool t.bufferSize (buffer, i.toInt) := by
  rw [toInt_of_lt_reach hfirst.inside]
  exact inPool_of_lt_reach hsmall hfirst.inside

theorem print_total (hsmall : t.bufferSize.toNat < 2 ^ 31) (hroom : t.HasRoom .outBuffer)
    {string : Word32 → Byte} (hfirst : string 0 ≠ 0) :
    (t.print string).Total (InPool t.bufferSize) (· = t) :=
  (print_holds hfirst (findFree_total hsmall hroom).1).total (print_returns (by omega) hfirst)

/-- A store of zero leaves the zero that ends the loop. -/
theorem put_zero (hzero : t.cells .commandBuffer stop = 0) (i : Word32) :
    (t.put .commandBuffer i 0).cells .commandBuffer stop = 0 := by
  rw [put_cell]
  split_ifs
  · rfl
  · exact hzero

theorem clearCommand_returns (hsmall : t.bufferSize.toNat < 2 ^ 31) (hstops : Stops t stop) :
    t.clearCommand.Returns := by
  have hinside := hstops.inside
  have hbehind := hstops.behind
  have hbound := (poolBytes_bounds hsmall).2
  have hstop : (BitVec.ofNat 32 stop).toNat = stop := by
    rw [BitVec.toNat_ofNat]
    omega
  rw [Terminal.clearCommand]
  refine returns_bind (forInt_returns (fun current => current.bufferSize = t.bufferSize ∧
    current.cells .commandBuffer stop = 0) ⟨rfl, hstops.zero⟩ ?_ ?_
    (show stop < passes by unfold passes; omega) ?_) fun current _ => returns_pure current.2
  · intro i current _
    split_ifs
    · exact returns_pure true
    · exact returns_bind (returns_access _ _) fun chr _ => returns_pure _
  · rintro i current ⟨hsame, hzero⟩
    exact ⟨current.put .commandBuffer i 0, rfl, hsame, put_zero hzero i⟩
  · rintro current ⟨hsame, hzero⟩
    have hend : ¬ (BitVec.ofNat 32 stop).signExtend 64 < t.bufferSize := by
      rw [BitVec.lt_def, toNat_signExtend_of_lt (by omega), hstop]
      omega
    rw [counter_zero, hsame, if_neg hend, result_bind, Terminal.read, result_access,
      toInt_of_lt (by omega), hstop, hzero]
    rfl

theorem clearCommand_inPool (hsmall : t.bufferSize.toNat < 2 ^ 31) (hstops : Stops t stop) :
    t.clearCommand.Holds (InPool t.bufferSize) fun t' => t'.cells .commandBuffer stop = 0 := by
  have hinside := hstops.inside
  have hbehind := hstops.behind
  have hbound := (poolBytes_bounds hsmall).2
  rw [Terminal.clearCommand]
  refine holds_bind (forInt_holds (fun i current => current.bufferSize = t.bufferSize ∧
    i.toNat ≤ stop ∧ current.cells .commandBuffer stop = 0) ?_ ⟨rfl, Nat.zero_le _, hstops.zero⟩)
    (Q := fun final => final.2.cells .commandBuffer stop = 0) fun final hzero => holds_pure hzero
  rintro i current ⟨hsame, hle, hzero⟩
  have hplace : InPool t.bufferSize (.commandBuffer, i.toInt) :=
    inPool_of_lt hsmall (hle.trans_lt hinside)
  have hbody : i.toNat < stop → (current.write .commandBuffer i 0).Holds (InPool t.bufferSize)
      fun next => next.bufferSize = t.bufferSize ∧ (i + 1).toNat ≤ stop ∧
        next.cells .commandBuffer stop = 0 := fun hless =>
    holds_access hplace ⟨hsame, by bv_omega, put_zero hzero i⟩
  rw [hsame]
  by_cases hmore : i.signExtend 64 < t.bufferSize
  · rw [if_pos hmore]
    rw [BitVec.lt_def, toNat_signExtend_of_lt (by omega)] at hmore
    exact holds_pure (hbody (by omega))
  · rw [if_neg hmore]
    refine holds_bind (holds_access (Q := (· = current.cells .commandBuffer i.toInt)) hplace rfl)
      fun chr hchr => holds_pure ?_
    subst hchr
    split_ifs with hagain
    · refine hbody (lt_of_le_of_ne hle ?_)
      rintro rfl
      rw [toInt_of_lt (by omega), hzero] at hagain
      exact absurd hagain (by decide)
    · exact hzero

theorem clearCommand_total (hsmall : t.bufferSize.toNat < 2 ^ 31)
    (hsize : t.bufferSize.toNat ≤ 2 ^ 64 - 2 ^ 31) (hstops : Stops t stop) (text : List Byte) :
    t.clearCommand.Total (InPool t.bufferSize) fun t' =>
      Commands t' text ∧ Kept [.commandBuffer] t t' := by
  refine ((((clearCommand_inPool hsmall hstops).total (clearCommand_returns hsmall hstops)).and
    (clearCommand_clears hsmall)).and
      (clearCommand_kept t (List.mem_singleton_self _))).mono ?_
  rintro cleared ⟨⟨hzero, hclear⟩, hkept⟩
  refine ⟨⟨⟨[], ⟨hkept.bufferSize ▸ hsize, fun position hposition => ?_,
    fun _ hnone => absurd hnone List.not_mem_nil⟩, Nat.zero_le _⟩, stop,
    hstops.congr hkept.bufferSize hzero⟩, hkept⟩
  rw [hkept.bufferSize] at hposition
  exact hclear position (by omega)

/-! ## A call of `handler` -/

theorem enterLine_total (hcontents : Contents last t text) (hcommands : Commands t text)
    (hroom : t.HasRoom .outBuffer) (hsmall : t.bufferSize.toNat < 2 ^ 31) (hbegun : text ≠ [])
    (hfits : RowFits t text) (hti : ti.toNat = text.length) (next : List Byte) :
    (t.enterLine ti).Total (InPool t.bufferSize) fun t' =>
      Commands t' next ∧ Kept [.textBuffer, .commandBuffer] t t' := by
  obtain ⟨⟨line, hshows, -⟩, stop, hstops⟩ := hcommands
  have hwidth : t.width ≠ 0 := by
    rintro hzero
    have hpos := hcontents.width_pos
    rw [hzero] at hpos
    exact absurd hpos (by decide)
  have hline : (t.newLine ti).Holds (InPool t.bufferSize) fun _ => True :=
    (newLine_contents hcontents hbegun hfits hti fun position hposition =>
      ⟨Int.natCast_nonneg _, Int.ofNat_lt.mpr
        (hposition.trans (poolBytes_bounds hsmall).1)⟩).mono fun _ _ => trivial
  rw [Terminal.enterLine]
  refine total_bind ((hline.total (newLine_returns hwidth ti)).and
    (newLine_kept t ti (List.mem_singleton_self _))) fun ended hended => ?_
  obtain ⟨-, hkept⟩ := hended
  obtain ⟨free, hfree, hzero⟩ := hroom
  have hroom' : ended.HasRoom .outBuffer :=
    ⟨free, reach_congr hkept.bufferSize ▸ hfree,
      hkept.cells .outBuffer (by decide) ▸ hzero⟩
  have hstops' : Stops ended stop :=
    hstops.congr hkept.bufferSize (hkept.cells .commandBuffer (by decide) ▸ hstops.zero)
  have hsize := hshows.size
  rw [← hkept.bufferSize] at hsmall hsize ⊢
  rw [runCommand, if_pos rfl]
  refine total_bind (print_total hsmall hroom' (by decide)) fun printed hprinted => ?_
  subst hprinted
  refine (clearCommand_total hsmall hsize hstops' next).mono fun cleared hcleared => ?_
  exact ⟨hcleared.1, (hkept.mono (by simp)).trans (hcleared.2.mono (by simp))⟩

theorem echo_total (hcommands : Commands t text) (hsmall : t.bufferSize.toNat < 2 ^ 31)
    (hchr : chr ≠ 0) (hti : t.FirstZero .textBuffer ti) (hci : t.FirstZero .commandBuffer ci)
    (hshort : text.length + 1 < t.reach) :
    (t.echo ti ci chr).Total (InPool t.bufferSize) fun t' =>
      Commands t' (text ++ [chr]) ∧ Kept [.textBuffer, .commandBuffer] t t' := by
  obtain ⟨⟨line, hshows, hle⟩, stop, hstops⟩ := hcommands
  have hreach : t.reach ≤ t.bufferSize.toNat := min_le_left _ _
  have hstring := hshows.stringIs (by omega)
  have hend : ci.toNat = line.length :=
    toNat_eq_of_firstZero hci hstring.ends fun _ => hstring.cell_ne
  have hbehind := hstops.behind
  refine total_bind (Q := (· = t.put .textBuffer ti chr))
    (total_access (inPool_of_firstZero hsmall hti) rfl) fun shown hshown => ?_
  subst hshown
  have hkept : Kept [.textBuffer] t (t.put .textBuffer ti chr) :=
    kept_put ti chr (List.mem_singleton_self _)
  have hcells := hkept.cells .commandBuffer (by decide)
  refine total_access (inPool_of_firstZero hsmall hci) ⟨⟨⟨line ++ [chr], ?_, ?_⟩, stop, ?_⟩, ?_⟩
  · exact (hshows.of_kept hkept (by decide)).append hchr hend (by omega)
  · rw [List.length_append, List.length_append]
    exact Nat.add_le_add_right hle _
  · refine hstops.congr rfl ?_
    rw [put_cell, if_neg (by omega), hcells]
    exact hstops.zero
  · exact (hkept.mono (by simp)).trans (kept_put ci chr (by simp))

/-- A character that is taken. -/
theorem takeInput_total (hcontents : Contents last t text) (hcommands : Commands t text)
    (hroom : t.HasRoom .outBuffer) (hsmall : t.bufferSize.toNat < 2 ^ 31)
    (hii : t.ii.toNat < t.reach) (hsome : t.nextInput ≠ 0) (hfits : Fits t text) :
    (t.takeInput t.nextInput).Total (InPool t.bufferSize) fun t' =>
      Commands t' (nextText t text) := by
  obtain ⟨hbegun, hlength⟩ := hfits
  obtain ⟨⟨line, hshows, hle⟩, -⟩ := id hcommands
  have hshort := hcontents.short
  have hreach : t.reach ≤ t.bufferSize.toNat := min_le_left _ _
  have hcommand : t.HasRoom .commandBuffer :=
    ⟨line.length, by omega, (hshows.stringIs (by omega)).ends⟩
  rw [nextText, if_neg hsome] at hlength ⊢
  rw [Terminal.takeInput]
  refine total_bind (scan_total hsmall hcontents.hasRoom) fun ti hti =>
    total_bind (scan_total hsmall hcommand) fun ci hci => ?_
  refine total_bind (Q := fun t' => Commands t' (feed t.width.toNat space lineFeed text
      t.nextInput) ∧ Kept [.textBuffer, .commandBuffer] t t') ?_ fun shown hshown => ?_
  · by_cases hline : t.nextInput = lineFeed
    · rw [feed, if_pos hline, length_endRow] at hlength
      rw [if_pos hline]
      exact enterLine_total hcontents hcommands hroom hsmall (hbegun hline) hlength
        (toNat_eq_of_firstZero hti hcontents.textLength.1 fun _ => hcontents.textLength.2 _) _
    · rw [if_neg hline, feed, if_neg hline]
      exact echo_total hcommands hsmall hsome hti hci hshort
  · obtain ⟨hcommands', hkept⟩ := hshown
    have hplace : InPool t.bufferSize (.inBuffer, shown.ii.toInt) := by
      rw [hkept.ii, toInt_of_lt_reach hii]
      exact inPool_of_lt_reach hsmall hii
    refine total_bind (Q := fun t' => Commands t' _) (total_access hplace ?_) fun taken htaken =>
      total_pure (htaken.congr rfl rfl)
    exact hcommands'.congr rfl
      ((kept_put _ _ (List.mem_singleton_self _)).cells .commandBuffer (by decide))

theorem handler_total (hcontents : Contents last t text) (hcommands : Commands t text)
    (hidle : Idle t) (hsmall : t.bufferSize.toNat < 2 ^ 31) (hii : t.ii.toNat < t.reach)
    (hfits : Fits t text) :
    t.handler.Total (InPool t.bufferSize) fun t' => Commands t' (nextText t text) := by
  have hroom : t.HasRoom .outBuffer := ⟨0, (Nat.zero_le _).trans_lt hii, hidle.first⟩
  let awake : Terminal := { t with work := false }
  have hinput : awake.handleInput.Total (InPool t.bufferSize) fun t' =>
      Commands t' (nextText t text) := by
    rw [Terminal.handleInput]
    have hplace : InPool t.bufferSize (.inBuffer, awake.ii.toInt) := by
      rw [toInt_of_lt_reach (t := t) hii]
      exact inPool_of_lt_reach hsmall hii
    refine total_bind (Q := (· = t.nextInput)) (total_access hplace rfl) fun chr hchr => ?_
    subst hchr
    by_cases hnone : t.nextInput = 0
    · rw [if_pos hnone, nextText, if_pos hnone]
      exact total_pure (hcommands.congr rfl rfl)
    · rw [if_neg hnone]
      exact takeInput_total (t := awake) (hcontents.congr rfl rfl rfl) (hcommands.congr rfl rfl)
        hroom hsmall hii hnone hfits
  rw [Terminal.handler]
  refine total_bind (hinput.and (handleInput_holds awake)) fun middle hmiddle => ?_
  obtain ⟨hcommands', -, hout, hio⟩ := hmiddle
  -- `out` is empty, so its first cell is read and no more
  have hnone : middle.cells .outBuffer middle.io.toInt = 0 := by
    rw [hout, hio]
    exact hidle.nextOutput
  have hfirst : InPool t.bufferSize (.outBuffer, middle.io.toInt) := by
    rw [hio, show awake.io = 0 from hidle.io]
    exact ⟨le_rfl, Int.ofNat_lt.mpr ((Nat.zero_le _).trans_lt (poolBytes_bounds hsmall).1)⟩
  rw [Terminal.handleOutput]
  refine total_bind (total_bind (Q := (· = 0)) (total_access hfirst hnone) fun chr hchr => ?_)
    (Q := fun t' => Commands t' _) fun served hserved => total_pure (hserved.congr rfl rfl)
  rw [if_pos hchr]
  exact total_pure (hcommands'.congr rfl rfl)

/-- An interrupt of the keyboard: the queue has a free cell. -/
theorem handleKeyboard_total {m : Machine} (beyond scancode : Byte)
    (hqueued : Queued m.terminal ahead behind) (hsmall : m.terminal.bufferSize.toNat < 2 ^ 31) :
    (m.handleKeyboard beyond scancode).Total (InPool m.terminal.bufferSize) fun _ => True := by
  have hzero := hqueued.cell_ahead ahead.length hqueued.ahead_lt
  rw [List.getD_eq_default _ _ le_rfl] at hzero
  have hroom : m.terminal.HasRoom .inBuffer := ⟨_, hqueued.ahead_lt, hzero⟩
  simp only [Machine.handleKeyboard]
  cases (m.keyboard.decode beyond scancode).2 with
  | none => exact total_pure trivial
  | some chr =>
      refine total_bind (Q := fun _ => True) ?_ fun terminal _ => total_pure trivial
      exact total_bind (findFree_total hsmall hroom) fun i hfirst =>
        total_access (inPool_of_firstZero hsmall hfirst) trivial

/-! ## Runs -/

/-- A key that comes finds room, and the text that a call of `handler` makes fits. -/
def Fitting (beyond : Byte) (h : History) (event : Event) : Prop :=
  Roomy beyond h event ∧ TextFits h event

instance (beyond : Byte) (h : History) (event : Event) : Decidable (Fitting beyond h event) :=
  inferInstanceAs (Decidable (_ ∧ _))

/-- What keeps the steps of a history from failing. -/
structure Serving (last : Byte) (h : History) : Prop where
  spells : Spells last h
  delivers : Delivers h
  commands : Commands h.machine.terminal (spelled h)
  small : h.machine.terminal.bufferSize.toNat < 2 ^ 31

variable {beyond : Byte} {h h' : History} {event : Event}

/-- A step that fits comes to a result. -/
theorem serving_step (hserving : Serving last h) (hfits : Fitting beyond h event) :
    ∃ h', pagedStep beyond h event = some h' ∧ Serving last h' := by
  obtain ⟨hspells, hdelivers, hcommands, hsmall⟩ := hserving
  obtain ⟨ahead, behind, hqueued⟩ := hdelivers.exists_queued
  cases event with
  | key scancode =>
      obtain ⟨hall, machine, hmachine, -⟩ :=
        handleKeyboard_total beyond scancode hqueued hsmall
      have hstep : h.step beyond (.key scancode) = some ⟨machine,
          h.enqueued ++ (h.machine.enqueues beyond (.key scancode)).toList,
          h.consumed ++ (consumes h.machine (.key scancode)).toList⟩ := by
        rw [History.step, Machine.step, hmachine]
        rfl
      refine ⟨_, pagedStep_eq_some_iff.mpr ⟨hall, hstep⟩, spells_key hspells hstep,
        delivers_step hdelivers hfits.1 hstep, ?_, ?_⟩
      · have hkept := kept_key hstep
        rw [spelled_key hstep]
        exact hcommands.congr hkept.bufferSize (hkept.cells .commandBuffer (by decide))
      · rw [bufferSize_step hstep]
        exact hsmall
  | handler =>
      have hii : h.machine.terminal.ii.toNat < h.machine.terminal.reach :=
        Nat.lt_of_le_of_lt (Nat.le_add_right _ _) hqueued.ahead_lt
      obtain ⟨hall, terminal, hterminal, hcommands'⟩ :=
        handler_total hspells.contents hcommands hspells.idle hsmall hii hfits.2
      have hstep : h.step beyond .handler = some ⟨{ h.machine with terminal := terminal },
          h.enqueued ++ (h.machine.enqueues beyond .handler).toList,
          h.consumed ++ (consumes h.machine .handler).toList⟩ := by
        rw [History.step, Machine.step, hterminal]
        rfl
      refine ⟨_, pagedStep_eq_some_iff.mpr ⟨hall, hstep⟩, spells_step hspells hfits.2 hstep,
        delivers_step hdelivers hfits.1 hstep, ?_, ?_⟩
      · rw [spelled_handler hstep]
        exact hcommands'
      · rw [bufferSize_step hstep]
        exact hsmall

/-- The pool of the command buffer has a zero in its last page, behind the buffer. -/
def Ended (size : Word64) (pool : ℤ → Byte) : Prop :=
  ∃ position : ℕ, size.toNat ≤ position ∧ position < poolBytes size ∧ pool position = 0

variable {frameBuffer : TextRenderer.Framebuffer} {pool : Buffer → ℤ → Byte}
  {keyboard : Keyboard} {position : ℕ}

theorem serving_start (hsize : 1 < (Terminal.init frameBuffer pool).reach)
    (hsmall : (Terminal.init frameBuffer pool).bufferSize.toNat < 2 ^ 31)
    (hempty : InputEmpty (.init frameBuffer pool))
    (hended : Ended (Terminal.init frameBuffer pool).bufferSize (pool .commandBuffer))
    (keyboard : Keyboard) :
    Serving ((Terminal.init frameBuffer pool).cells .textBuffer
        ((Terminal.init frameBuffer pool).bufferSize.toNat - 1 : ℕ))
      (.start ⟨.init frameBuffer pool, keyboard⟩) := by
  have hreach : (Terminal.init frameBuffer pool).reach ≤
      (Terminal.init frameBuffer pool).bufferSize.toNat := min_le_left _ _
  have hpos : 0 < (Terminal.init frameBuffer pool).bufferSize := by
    rw [BitVec.lt_def]
    exact (show 0 < _ by omega)
  obtain ⟨stop, hbehind, hinside, hzero⟩ := hended
  refine ⟨spells_init hsize keyboard, delivers_start hpos rfl hempty,
    ⟨⟨[], CommandLine.shows_init frameBuffer pool, Nat.zero_le _⟩, stop, hbehind, hinside, ?_⟩,
    hsmall⟩
  exact (init_cells_of_le frameBuffer pool .commandBuffer (by omega) (by omega)).trans hzero

/-- However many characters arrive in the meantime, and wherever they go, a character that is
in a cell of `in` is consumed from there by one of the next `reach + 1` calls of `handler`, and
all of them return. -/
theorem key_does_not_starve {past events : List Event}
    (hsize : 1 < (Terminal.init frameBuffer pool).reach)
    (hsmall : (Terminal.init frameBuffer pool).bufferSize.toNat < 2 ^ 31)
    (hempty : InputEmpty (.init frameBuffer pool))
    (hended : Ended (Terminal.init frameBuffer pool).bufferSize (pool .commandBuffer))
    (hfits : Meets (pagedStep beyond) (Fitting beyond)
      (.start ⟨.init frameBuffer pool, keyboard⟩) (past ++ events))
    (hpast : run (pagedStep beyond) (.start ⟨.init frameBuffer pool, keyboard⟩) past = some h)
    (hwaits : Waits h position chr) (hcalls : h.machine.terminal.reach < handlers events) :
    (∃ final, run (pagedStep beyond) h events = some final) ∧
      ∃ before state next, before ++ [.handler] <+: events ∧
        run (pagedStep beyond) h before = some state ∧ Takes state position chr ∧
        pagedStep beyond state .handler = some next ∧
        next.consumed = state.consumed ++ [chr] := by
  obtain ⟨reached, hreached, hserving⟩ := run_returns (Serving _)
    (serving_start hsize hsmall hempty hended keyboard) (fun _ _ => serving_step) hfits.left
  obtain rfl := Option.some.inj (hreached.symm.trans hpast)
  have hrest := hfits.right hpast
  obtain ⟨final, hrun, -⟩ := run_returns (Serving _) hserving (fun _ _ => serving_step) hrest
  obtain ⟨before, state, hprefix, hbefore, htakes⟩ := exists_takes hwaits hserving.delivers
    (hrest.imp fun _ _ => And.left) hrun (lt_of_le_of_lt (wait_le hwaits.inside) hcalls)
  obtain ⟨next, hnext⟩ :=
    Option.ne_none_iff_exists'.mp (run_ne_none_of_step hrun hprefix hbefore)
  refine ⟨⟨final, hrun⟩, before, state, next, hprefix, hbefore, htakes, hnext, ?_⟩
  rw [(handler_cases (step_of_paged hnext)).2.2, htakes.2]
  rfl

/-- `b` lands behind the handler, and `c` and `d` in front of it. -/
def behindTwo : List Event := [.key 0x1E, .handler, .key 0x30, .key 0x2E]

theorem key_does_not_starve_behind :
    ∃ h, run (pagedStep 0) (.start eightCells) behindTwo = some h ∧
      ∃ before state next, before ++ [.handler] <+: .key 0x20 :: List.replicate 9 .handler ∧
        run (pagedStep 0) h before = some state ∧ Takes state 0 0x62 ∧
        pagedStep 0 state .handler = some next ∧ next.consumed = state.consumed ++ [0x62] := by
  have hcells : (run (pagedStep 0) (.start eightCells) behindTwo).map (fun h =>
      (h.machine.terminal.reach, h.machine.terminal.cells .inBuffer 0)) = some (8, 0x62) := by
    decide +kernel
  obtain ⟨h, hpast, hcells⟩ := Option.map_eq_some_iff.mp hcells
  obtain ⟨hreach, hcell⟩ := Prod.mk.injEq .. ▸ hcells
  have hfits : Meets (pagedStep 0) (Fitting 0) (.start eightCells)
      (behindTwo ++ .key 0x20 :: List.replicate 9 .handler) := by
    decide +kernel
  refine ⟨h, hpast, (key_does_not_starve (by decide +kernel) (by decide +kernel)
    (by decide +kernel) ⟨8, by decide +kernel, by decide +kernel, rfl⟩ hfits hpast
    (show Waits h 0 0x62 from ⟨hreach ▸ by decide, hcell, by decide⟩) ?_).2⟩
  rw [hreach]
  decide

end RedX.HandlerReturns
