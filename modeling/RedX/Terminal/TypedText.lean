import RedX.Core.RowText
import RedX.Terminal.Delivery
import RedX.Terminal.NewLine

/-!
# What the text buffer spells

As long as the text fits, the cells of the text buffer are the characters that the handler
has consumed, laid out in rows: an abstract text, to which every call of `handler` feeds the
character that it takes from `in`.
-/

namespace RedX.TypedText

open RedX.MachineWord
open RedX.PartialRun
open RedX.AccessLog
open RedX.RowText
open RedX.TextTerminal
open RedX.KeyboardInput
open RedX.InputQueue
open RedX.PoolPages
open RedX.OutputQueue (Idle idle_init idle_handler)
open RedX.LineEnd (TextLength RowEnd morePadding_holds newLine_eq put_cell toNat_pred scan_found morePadding morePadding_all)
open RedX.Delivery

/-- The text buffer holds the text and zeros behind it, but for the last cell, which `init`
does not clear and which still holds `last`. -/
structure Contents (last : Byte) (t : Terminal) (text : List Byte) : Prop where
  width_pos : 0 < t.width.toNat
  cell : ∀ position : ℕ, position + 1 < t.bufferSize.toNat →
    t.cells .textBuffer position = text.getD position 0
  last_cell : t.cells .textBuffer (t.bufferSize.toNat - 1 : ℕ) = last
  proper : ∀ chr ∈ text, chr ≠ 0
  rows : RowEnds t.width.toNat lineFeed text
  short : text.length + 1 < t.reach

/-- The text with the character that the handler takes next. -/
def nextText (t : Terminal) (text : List Byte) : List Byte :=
  if t.nextInput = 0 then text else feed t.width.toNat space lineFeed text t.nextInput

variable {t t' : Terminal} {text : List Byte} {ti : Word32} {last chr : Byte} {count : ℕ}

theorem Contents.below (hcontents : Contents last t text) {position : ℕ}
    (hposition : position ≤ text.length) :
    position + 1 < t.bufferSize.toNat ∧ position + 1 < 2 ^ 31 := by
  have hshort := hcontents.short
  have hle : t.reach ≤ t.bufferSize.toNat := min_le_left _ _
  have hbound : t.reach ≤ 2 ^ 31 := min_le_right _ _
  omega

theorem Contents.textLength (hcontents : Contents last t text) : TextLength t text.length := by
  constructor
  · rw [hcontents.cell _ (hcontents.below le_rfl).1, List.getD_eq_default _ _ le_rfl]
  · intro position hposition
    rw [hcontents.cell _ (hcontents.below hposition.le).1, List.getD_eq_getElem _ _ hposition]
    exact hcontents.proper _ (List.getElem_mem hposition)

theorem Contents.hasRoom (hcontents : Contents last t text) : t.HasRoom .textBuffer :=
  ⟨text.length, (Nat.lt_succ_self _).trans hcontents.short, hcontents.textLength.1⟩

theorem Contents.congr (hcontents : Contents last t text) (hsize : t'.bufferSize = t.bufferSize)
    (hwidth : t'.width = t.width) (hcells : t'.cells .textBuffer = t.cells .textBuffer) :
    Contents last t' text := by
  obtain ⟨hpos, hcell, hlast, hproper, hrows, hshort⟩ := hcontents
  refine ⟨hwidth ▸ hpos, ?_, ?_, hproper, hwidth ▸ hrows, ?_⟩
  · rw [hsize, hcells]
    exact hcell
  · rw [hsize, hcells]
    exact hlast
  · rw [reach_congr hsize]
    exact hshort

theorem Contents.of_kept {buffers : List Buffer} (hcontents : Contents last t text)
    (hkept : Kept buffers t t') (htext : .textBuffer ∉ buffers) : Contents last t' text :=
  hcontents.congr hkept.bufferSize hkept.width (hkept.cells _ htext)

/-! ## The padding loop -/

/-- The loop has stored `count` spaces behind the text. -/
structure Padding (last : Byte) (t : Terminal) (text : List Byte) (count : ℕ) (ti : Word32)
    (current : Terminal) : Prop where
  place : ti.toNat = text.length + count
  le : count ≤ pad t.width.toNat text.length
  kept : Kept [.textBuffer] t current
  cell : ∀ position : ℕ, position + 1 < t.bufferSize.toNat →
    current.cells .textBuffer position =
      (text ++ List.replicate count space).getD position 0
  last_cell : current.cells .textBuffer (t.bufferSize.toNat - 1 : ℕ) = last

/-- The text fits with the rest of its row. -/
def RowFits (t : Terminal) (text : List Byte) : Prop :=
  text.length + pad t.width.toNat text.length + 1 < t.reach

theorem RowFits.below (hfits : RowFits t text) (position : ℕ)
    (hposition : position ≤ text.length + pad t.width.toNat text.length) :
    position + 1 < t.bufferSize.toNat ∧ position + 1 < 2 ^ 31 := by
  have hle : t.reach ≤ t.bufferSize.toNat := min_le_left _ _
  have hbound : t.reach ≤ 2 ^ 31 := min_le_right _ _
  rw [RowFits] at hfits
  omega

/-- The loop ends where the row does. -/
theorem Padding.rowEnd_iff {current : Terminal} (hcontents : Contents last t text)
    (hbegun : text ≠ []) (hfits : RowFits t text)
    (hpadding : Padding last t text count ti current) :
    RowEnd current ti ↔ count = pad t.width.toNat text.length := by
  have hle := hpadding.le
  have hplace := hpadding.place
  have hbelow := hfits.below ti.toNat (by omega)
  have hlength := List.length_pos_iff.mpr hbegun
  rw [RowEnd, hpadding.kept.width, toNat_signExtend_of_lt (by omega), hplace,
    ← Nat.dvd_iff_mod_eq_zero]
  constructor
  · rintro (hfeed | hcolumn)
    · have hprevious := @toNat_pred ti (by bv_omega)
      rw [toInt_of_lt (by omega), hpadding.cell _ (by omega)] at hfeed
      cases count with
      | succ earlier =>
          rw [getD_append_replicate_succ, if_pos (by omega)] at hfeed
          exact absurd hfeed (by decide)
      | zero =>
          rw [List.replicate_zero, List.append_nil] at hfeed
          have hlast : text[(ti - 1).toNat]? = some lineFeed := by
            rw [List.getD_eq_getElem _ _ (by omega)] at hfeed
            rw [List.getElem?_eq_getElem (by omega), hfeed]
          have hdvd := hcontents.rows _ hlast
          rw [hprevious, hplace, Nat.add_zero] at hdvd
          exact (pad_eq_zero hcontents.width_pos hdvd).symm
    · exact eq_pad hcontents.width_pos hle hcolumn
  · rintro rfl
    exact Or.inr (dvd_add_pad hcontents.width_pos _)

theorem Padding.next {current : Terminal} (hfits : RowFits t text)
    (hpadding : Padding last t text count ti current)
    (hless : count ≠ pad t.width.toNat text.length) :
    Padding last t text (count + 1) (ti + 1) (current.put .textBuffer ti space) := by
  have hle := hpadding.le
  have hplace := hpadding.place
  have hbelow := hfits.below ti.toNat (by omega)
  refine ⟨by bv_omega, by omega, hpadding.kept.trans (kept_put ti space (by decide)), ?_, ?_⟩
  · intro position hposition
    rw [put_cell, getD_append_replicate_succ, hpadding.cell position hposition]
    exact if_congr (by omega) rfl rfl
  · rw [put_cell, if_neg (by omega)]
    exact hpadding.last_cell

/-- A `'\n'` ends the row of the text. -/
theorem newLine_contents {P : Access → Prop} (hcontents : Contents last t text)
    (hbegun : text ≠ []) (hfits : RowFits t text) (hti : ti.toNat = text.length)
    (hinside : ∀ position < t.bufferSize.toNat, P (.textBuffer, (position : ℕ))) :
    (t.newLine ti).Holds P fun t' =>
      Contents last t' (endRow t.width.toNat space lineFeed text) := by
  have hlength := List.length_pos_iff.mpr hbegun
  have hcell : ∀ i : Word32, i.toNat ≤ text.length + pad t.width.toNat text.length →
      P (.textBuffer, i.toInt) := fun i hi => by
    have hbelow := hfits.below i.toNat hi
    rw [toInt_of_lt (by omega)]
    exact hinside _ (by omega)
  rw [newLine_eq]
  refine holds_bind (Q := fun stop =>
      Padding last t text (pad t.width.toNat text.length) stop.1 stop.2)
    (forInt_holds (fun ti current => ∃ count, Padding last t text count ti current) ?_
      ⟨0, by omega, Nat.zero_le _, Kept.refl t, by simpa using hcontents.cell,
        hcontents.last_cell⟩) ?_
  · rintro ti current ⟨count, hpadding⟩
    have hplace := hpadding.place
    have hle := hpadding.le
    have hcond : (morePadding ti current).Holds P fun again => again = true ↔ ¬ RowEnd current ti :=
      ⟨morePadding_all current (hcell _ (by bv_omega)), (morePadding_holds ti current).2⟩
    refine hcond.mono fun again hagain => ?_
    rw [hpadding.rowEnd_iff hcontents hbegun hfits] at hagain
    split_ifs with hmore
    · exact holds_access (hcell ti (by omega)) ⟨count + 1, hpadding.next hfits (hagain.mp hmore)⟩
    · exact (not_not.mp (mt hagain.mpr hmore)) ▸ hpadding
  · rintro ⟨ti, current⟩ ⟨hplace, -, hkept, hshown, hlast⟩
    have hbelow := hfits.below _ le_rfl
    refine holds_access (hcell (ti - 1) (by bv_omega)) ⟨?_, fun position hposition => ?_, ?_, fun chr hchr => ?_, ?_, ?_⟩
    · exact hkept.width ▸ hcontents.width_pos
    · change position + 1 < current.bufferSize.toNat at hposition
      rw [hkept.bufferSize] at hposition
      rw [put_cell, hshown position hposition, endRow, getD_set, ← padded, length_padded]
      exact if_congr (by bv_omega) rfl rfl
    · change (current.put .textBuffer (ti - 1) lineFeed).cells .textBuffer
        (current.bufferSize.toNat - 1 : ℕ) = last
      rw [hkept.bufferSize, put_cell, if_neg (by bv_omega)]
      exact hlast
    · rcases mem_endRow hchr with hold | rfl | rfl
      exacts [hcontents.proper chr hold, by decide, by decide]
    · change RowEnds current.width.toNat _ _
      rw [hkept.width]
      exact rowEnds_endRow hcontents.width_pos (by decide) hcontents.rows
    · change _ < current.reach
      rw [length_endRow, reach_congr hkept.bufferSize]
      exact hfits

/-! ## The handler -/

/-- The text fits with the next character, and the first one is no `'\n'`, for which the cell
before the buffer would be written. -/
def Fits (t : Terminal) (text : List Byte) : Prop :=
  (t.nextInput = lineFeed → text ≠ []) ∧ (nextText t text).length + 1 < t.reach

instance (t : Terminal) (text : List Byte) : Decidable (Fits t text) :=
  inferInstanceAs (Decidable ((_ → _ ≠ _) ∧ _ < _))

theorem Contents.put_last (hcontents : Contents last t text) (hti : ti.toNat = text.length)
    (hproper : chr ≠ 0) (hline : chr ≠ lineFeed) (hfits : text.length + 1 + 1 < t.reach) :
    Contents last (t.put .textBuffer ti chr) (text ++ [chr]) := by
  have hbelow := hcontents.below le_rfl
  refine ⟨hcontents.width_pos, fun position hposition => ?_, ?_, fun other hother => ?_, ?_, ?_⟩
  · rw [put_cell, RewindQueue.getD_concat, hcontents.cell position hposition]
    exact if_congr (by omega) rfl rfl
  · change (t.put .textBuffer ti chr).cells .textBuffer (t.bufferSize.toNat - 1 : ℕ) = last
    rw [put_cell, if_neg (by omega)]
    exact hcontents.last_cell
  · rcases List.mem_append.mp hother with hold | hlast
    · exact hcontents.proper other hold
    · rwa [List.mem_singleton.mp hlast]
  · have hfed := rowEnds_feed chr hcontents.width_pos (show space ≠ lineFeed by decide)
      hcontents.rows
    rwa [feed, if_neg hline] at hfed
  · rw [List.length_append, List.length_singleton]
    exact hfits

theorem enterLine_contents (hcontents : Contents last t text) (hbegun : text ≠ [])
    (hfits : RowFits t text) (hti : ti.toNat = text.length) :
    (t.enterLine ti).Holds anywhere fun t' =>
      Contents last t' (endRow t.width.toNat space lineFeed text) := by
  unfold Terminal.enterLine
  refine holds_bind (newLine_contents hcontents hbegun hfits hti fun _ _ => trivial)
    fun ended hended => ?_
  rw [runCommand, if_pos rfl]
  refine holds_bind (print_eq ended (by decide)) fun printed hprinted => ?_
  subst hprinted
  exact (clearCommand_kept printed (List.mem_singleton_self _)).mono fun _ hkept =>
    hended.of_kept hkept (by decide)

theorem takeInput_contents (hcontents : Contents last t text) (hsome : t.nextInput ≠ 0)
    (hfits : Fits t text) :
    (t.takeInput t.nextInput).Holds anywhere fun t' => Contents last t' (nextText t text) := by
  obtain ⟨hbegun, hfits⟩ := hfits
  rw [nextText, if_neg hsome] at hfits
  rw [nextText, if_neg hsome, Terminal.takeInput]
  refine holds_bind (scan_found t .textBuffer) fun ti hfound => ?_
  refine holds_bind (holds_anywhere _) fun ci _ => ?_
  have hbelow := hcontents.below le_rfl
  have hti := hfound.toNat_eq hcontents.textLength (by omega)
  refine holds_bind (Q := fun t' => Contents last t' (feed t.width.toNat space lineFeed text
    t.nextInput)) ?_ fun shown hshown => ?_
  · by_cases hline : t.nextInput = lineFeed
    · rw [feed, if_pos hline, length_endRow] at hfits
      rw [if_pos hline, feed, if_pos hline]
      exact enterLine_contents hcontents (hbegun hline) hfits hti
    · rw [feed, if_neg hline, List.length_append, List.length_singleton] at hfits
      rw [if_neg hline, feed, if_neg hline]
      refine holds_bind (holds_access (Q := (· = t.put .textBuffer ti t.nextInput)) trivial rfl)
        fun echoed hechoed => ?_
      subst hechoed
      have hechoed := hcontents.put_last hti hsome hline hfits
      exact (write_kept ci t.nextInput (List.mem_singleton_self _)).mono fun _ hkept =>
        hechoed.of_kept hkept (by decide)
  · refine holds_bind (write_kept shown.ii 0 (List.mem_singleton_self _)) fun taken hkept =>
      holds_pure ?_
    exact (hshown.of_kept hkept (by decide)).congr rfl rfl rfl

/-- What `handler` is when nothing is in `out`. -/
theorem handler_of_idle (hidle : Idle t) (hresult : t.handler.result = some t') :
    ∃ middle, ({ t with work := false } : Terminal).handleInput.result = some middle ∧
      t' = { middle with io := 0, schedulerWork := middle.schedulerWork || middle.work } := by
  rw [Terminal.handler, result_bind, Option.bind_eq_some_iff] at hresult
  obtain ⟨middle, hmiddle, hresult⟩ := hresult
  have hnone : middle.nextOutput = 0 :=
    (nextOutput_handleInput hmiddle).trans hidle.nextOutput
  rw [result_bind, handleOutput_result, if_pos hnone] at hresult
  exact ⟨middle, hmiddle, (Option.some.inj hresult).symm⟩

theorem handler_contents (hcontents : Contents last t text) (hidle : Idle t) (hfits : Fits t text)
    (hresult : t.handler.result = some t') : Contents last t' (nextText t text) := by
  obtain ⟨middle, hmiddle, rfl⟩ := handler_of_idle hidle hresult
  have hawake : Contents last { t with work := false } text := hcontents.congr rfl rfl rfl
  suffices hshown : Contents last middle (nextText t text) from hshown.congr rfl rfl rfl
  rw [handleInput_result] at hmiddle
  by_cases hnone : t.nextInput = 0
  · rw [if_pos (show Terminal.nextInput { t with work := false } = 0 from hnone)] at hmiddle
    rw [nextText, if_pos hnone]
    exact Option.some.inj hmiddle ▸ hawake.congr rfl rfl rfl
  · rw [if_neg (show Terminal.nextInput { t with work := false } ≠ 0 from hnone)] at hmiddle
    exact (takeInput_contents hawake hnone hfits).2 middle hmiddle

/-! ## What no store changes -/

section Fixed

variable {γ : Type} {value : Terminal → γ}

/-- The value does not depend on the cells. -/
def Fixed (value : Terminal → γ) : Prop :=
  ∀ t buffer i chr, value (Terminal.put t buffer i chr) = value t

theorem newLine_fixed (hfixed : Fixed value) (t : Terminal) (ti : Word32) :
    (t.newLine ti).Holds anywhere fun t' => value t' = value t := by
  rw [newLine_eq]
  refine holds_bind (Q := fun stop => value stop.2 = value t)
    (forInt_holds (fun _ current => value current = value t) ?_ rfl)
    fun stop hsame => holds_access trivial ((hfixed _ _ _ _).trans hsame)
  intro ti current hsame
  refine (holds_anywhere _).mono fun again _ => ?_
  split_ifs
  · exact holds_access trivial ((hfixed _ _ _ _).trans hsame)
  · exact hsame

theorem clearCommand_fixed (hfixed : Fixed value) (t : Terminal) :
    t.clearCommand.Holds anywhere fun t' => value t' = value t := by
  rw [Terminal.clearCommand]
  refine holds_bind (Q := fun stop => value stop.2 = value t)
    (forInt_holds (fun _ current => value current = value t) ?_ rfl)
    fun stop hsame => holds_pure hsame
  intro i current hsame
  refine (holds_anywhere _).mono fun again _ => ?_
  split_ifs
  · exact holds_access trivial ((hfixed _ _ _ _).trans hsame)
  · exact hsame

end Fixed

/-- The size of the terminal and the flag of the scheduler. -/
def Terminal.frame (t : Terminal) : Word64 × Bool := (t.height, t.schedulerWork)

theorem takeInput_frame (t : Terminal) (chr : Byte) : (t.takeInput chr).Holds anywhere fun t' =>
    t'.work = true ∧ Terminal.frame t' = Terminal.frame t := by
  have hfixed : Fixed Terminal.frame := fun _ _ _ _ => rfl
  rw [Terminal.takeInput]
  refine holds_bind (holds_anywhere _) fun ti _ => holds_bind (holds_anywhere _) fun ci _ => ?_
  refine holds_bind (Q := fun t' => Terminal.frame t' = Terminal.frame t) ?_ fun shown hshown =>
    holds_bind (Q := fun t' => Terminal.frame t' = Terminal.frame t)
      (holds_access trivial hshown) fun taken htaken => holds_pure ⟨rfl, htaken⟩
  split_ifs with hfeed
  · unfold Terminal.enterLine
    refine holds_bind (newLine_fixed hfixed t ti) fun ended hended => ?_
    rw [runCommand, if_pos rfl]
    refine holds_bind (print_eq ended (by decide)) fun printed hprinted => ?_
    subst hprinted
    exact (clearCommand_fixed hfixed printed).mono fun _ hcleared => hcleared.trans hended
  · exact holds_bind (Q := fun t' => Terminal.frame t' = Terminal.frame t)
      (holds_access trivial rfl) fun _ hechoed => holds_access trivial hechoed

/-- `handler` sets `scheduler.work` with the first character that it takes. -/
theorem handler_frame (hidle : Idle t) (hresult : t.handler.result = some t') :
    t'.height = t.height ∧ t'.schedulerWork = (t.schedulerWork || t.nextInput != 0) := by
  obtain ⟨middle, hmiddle, rfl⟩ := handler_of_idle hidle hresult
  rw [handleInput_result] at hmiddle
  by_cases hnone : t.nextInput = 0
  · rw [if_pos (show Terminal.nextInput { t with work := false } = 0 from hnone)] at hmiddle
    rw [← Option.some.inj hmiddle, hnone]
    exact ⟨rfl, rfl⟩
  · rw [if_neg (show Terminal.nextInput { t with work := false } ≠ 0 from hnone)] at hmiddle
    obtain ⟨hwork, hframe⟩ := (takeInput_frame _ _).2 middle hmiddle
    obtain ⟨hheight, hflag⟩ := Prod.mk.injEq .. ▸ hframe
    refine ⟨hheight, ?_⟩
    change (middle.schedulerWork || middle.work) = _
    rw [hwork, Bool.or_true, bne_iff_ne.mpr hnone, Bool.or_true]

/-! ## Runs -/

/-- The text that the characters consumed so far spell. -/
def spelled (h : History) : List Byte :=
  spell h.machine.terminal.width.toNat space lineFeed h.consumed

/-- A call of `handler` leaves the text short enough. -/
def TextFits (h : History) : Event → Prop
  | .key _ => True
  | .handler => Fits h.machine.terminal (spelled h)

instance (h : History) : ∀ event, Decidable (TextFits h event)
  | .key _ => isTrue trivial
  | .handler => inferInstanceAs (Decidable (Fits _ _))

/-- The text buffer spells what was consumed, and nothing is in `out`. -/
structure Spells (last : Byte) (h : History) : Prop where
  contents : Contents last h.machine.terminal (spelled h)
  idle : Idle h.machine.terminal

variable {beyond : Byte} {h h' : History}

theorem spelled_handler (hstep : h.step beyond .handler = some h') :
    spelled h' = nextText h.machine.terminal (spelled h) := by
  obtain ⟨hhandler, -, hconsumed⟩ := handler_cases hstep
  have hwidth := (handler_drains hhandler).1.width
  rw [spelled, nextText, hwidth, hconsumed, consumes]
  split_ifs with hnone
  · rw [Option.toList_none, List.append_nil]
    rfl
  · rw [Option.toList_some, spell_append]
    rfl

theorem kept_key {scancode : Byte} (hstep : h.step beyond (.key scancode) = some h') :
    Kept [.inBuffer] h.machine.terminal h'.machine.terminal := by
  rcases (key_cases hstep).2 with ⟨hsame, -⟩ | ⟨chr, i, -, -, hput, -⟩
  · exact hsame ▸ Kept.refl _
  · exact hput ▸ kept_put i chr (List.mem_singleton_self _)

theorem spelled_key {scancode : Byte} (hstep : h.step beyond (.key scancode) = some h') :
    spelled h' = spelled h := by
  rw [spelled, spelled, (key_cases hstep).1, (kept_key hstep).width]

theorem spells_key {scancode : Byte} (hspells : Spells last h)
    (hstep : h.step beyond (.key scancode) = some h') : Spells last h' := by
  have hkept := kept_key hstep
  have hout := hkept.cells .outBuffer (by decide)
  obtain ⟨hempty, hfirst, hio⟩ := hspells.idle
  refine ⟨?_, fun position hposition => ?_, hout ▸ hfirst, hkept.io.trans hio⟩
  · rw [spelled_key hstep]
    exact hspells.contents.of_kept hkept (by decide)
  · rw [hkept.bufferSize] at hposition
    exact hout ▸ hempty position hposition

theorem spells_step {event : Event} (hspells : Spells last h) (hfits : TextFits h event)
    (hstep : h.step beyond event = some h') : Spells last h' := by
  cases event with
  | key scancode => exact spells_key hspells hstep
  | handler =>
      have hhandler := (handler_cases hstep).1
      refine ⟨?_, idle_handler hspells.idle hhandler⟩
      rw [spelled_handler hstep]
      exact handler_contents hspells.contents hspells.idle hfits hhandler

theorem bufferSize_step {event : Event} (hstep : h.step beyond event = some h') :
    h'.machine.terminal.bufferSize = h.machine.terminal.bufferSize := by
  cases event with
  | key scancode => exact (kept_key hstep).bufferSize
  | handler => exact (handler_drains (handler_cases hstep).1).1.bufferSize

theorem spells_init {frameBuffer : TextRenderer.Framebuffer} {pool : Buffer → ℤ → Byte}
    (hsize : 1 < (Terminal.init frameBuffer pool).reach) (keyboard : Keyboard) :
    Spells ((Terminal.init frameBuffer pool).cells .textBuffer
        ((Terminal.init frameBuffer pool).bufferSize.toNat - 1 : ℕ))
      (.start ⟨.init frameBuffer pool, keyboard⟩) := by
  have hsmall : 1 < (Terminal.init frameBuffer pool).bufferSize.toNat :=
    lt_of_lt_of_le hsize (min_le_left _ _)
  refine ⟨⟨?_, fun position hposition => ?_, rfl, ?_, rowEnds_nil _ _, hsize⟩, idle_init hsmall⟩
  · refine Nat.pos_of_ne_zero fun hzero => ?_
    change (Terminal.init frameBuffer pool).width.toNat = 0 at hzero
    rw [(toNat_bufferSize_init frameBuffer pool).1, hzero, Nat.zero_mul] at hsmall
    omega
  · exact init_cells_eq_zero frameBuffer pool .textBuffer hposition
  · exact fun _ hnone => absurd hnone List.not_mem_nil

/-- In every run of keys and calls of `handler` from `init` in which the text fits, the text
buffer holds the text that the characters consumed spell, zeros behind it and in its last cell
what the pool held there. -/
theorem buffer_spells_consumed {frameBuffer : TextRenderer.Framebuffer}
    {pool : Buffer → ℤ → Byte} {keyboard : Keyboard} {events : List Event} {final : History}
    (hsize : 1 < (Terminal.init frameBuffer pool).reach)
    (hfits : Meets (pagedStep beyond) TextFits (.start ⟨.init frameBuffer pool, keyboard⟩) events)
    (hrun : run (pagedStep beyond) (.start ⟨.init frameBuffer pool, keyboard⟩) events =
      some final) :
    final.machine.terminal.bufferSize = (Terminal.init frameBuffer pool).bufferSize ∧
      (spelled final).length + 1 < final.machine.terminal.bufferSize.toNat ∧
      (∀ position : ℕ, position + 1 < final.machine.terminal.bufferSize.toNat →
        final.machine.terminal.cells .textBuffer position = (spelled final).getD position 0) ∧
      ∀ position : ℕ, position + 1 = final.machine.terminal.bufferSize.toNat →
        final.machine.terminal.cells .textBuffer position = pool .textBuffer position := by
  have hlive := run_meets_invariant (fun h => Spells _ h ∧
      h.machine.terminal.bufferSize = (Terminal.init frameBuffer pool).bufferSize)
    ⟨spells_init hsize keyboard, rfl⟩ (fun _ _ _ hlive hfits hstep =>
      ⟨spells_step hlive.1 hfits (step_of_paged hstep),
        (bufferSize_step (step_of_paged hstep)).trans hlive.2⟩) hfits hrun
  obtain ⟨⟨hcontents, -⟩, hsame⟩ := hlive
  refine ⟨hsame, (hcontents.below le_rfl).1, hcontents.cell, fun position hposition => ?_⟩
  have hlast := hcontents.last_cell
  rw [hsame] at hlast hposition
  rw [← init_cells_of_le frameBuffer pool .textBuffer (by omega) hposition.ge]
  rwa [show (Terminal.init frameBuffer pool).bufferSize.toNat - 1 = position by omega] at hlast

/-- The line `a` in a buffer of two rows of four characters; its end is read from the start
of `in` again. -/
def shortLine : List Event := [.key 0x1E, .handler, .key 0x1C, .handler, .handler]

theorem buffer_spells_consumed_row :
    ∃ final, run (pagedStep 0) (.start eightCells) shortLine = some final ∧
      spelled final = literal "a  \n" ∧
      ∀ position : ℕ, position + 1 < final.machine.terminal.bufferSize.toNat →
        final.machine.terminal.cells .textBuffer position = (spelled final).getD position 0 := by
  have hspelled : (run (pagedStep 0) (.start eightCells) shortLine).map spelled =
      some (literal "a  \n") := by
    decide +kernel
  obtain ⟨final, hrun, hfinal⟩ := Option.map_eq_some_iff.mp hspelled
  exact ⟨final, hrun, hfinal,
    (buffer_spells_consumed (by decide +kernel) (by decide +kernel) hrun).2.2.1⟩

end RedX.TypedText
