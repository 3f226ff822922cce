import RedX.Terminal.HandlerReturns
import RedX.Terminal.Render

/-!
# The main loop of the kernel

The end of `_start` calls `handler` and `render` in turn and halts the processor while
`scheduler.work` is false, and an interrupt of the keyboard may come between any two of the
three.  What is seen is then a function of the characters consumed: `render` comes after
every character and clears nothing, so the screen shows every text that they spelled, and the
byte that `init` leaves in the last cell.  The flag is never reset, so the loop halts only
before the first character; a key that comes between `handler` and `hlt` is not served until
the next one.
-/

namespace RedX.MainLoop

open RedX.MachineWord
open RedX.ByteMemory
open RedX.PartialRun
open RedX.RewindQueue
open RedX.Layers
open RedX.RowText
open RedX.TextRenderer
open RedX.PixelBounds
open RedX.Canvas
open RedX.TextTerminal
open RedX.TerminalRender
open RedX.KeyboardInput (Machine Keyboard step_handler step_key decode_ne_zero)
open RedX.InputQueue
open RedX.PoolPages
open RedX.Delivery
open RedX.TypedText
open RedX.HandlerReturns (Serving Ended serving_step serving_start)

/-- The statement that the loop executes next. -/
inductive Phase
  | handler
  | render
  | halt
  deriving DecidableEq

structure Kernel where
  history : History
  memory : Memory
  phase : Phase
  asleep : Bool

/-- The kernel at the start of the loop. -/
def Kernel.start (machine : Machine) (memory : Memory) : Kernel :=
  ⟨.start machine, memory, .handler, false⟩

inductive Event
  /-- An interrupt of the keyboard; it wakes the processor. -/
  | interrupt (scancode : Byte)
  /-- The next statement of the loop, if the processor is not halted. -/
  | advance

def Kernel.terminal (k : Kernel) : Terminal := k.history.machine.terminal

/-- `none` after a page fault, for which the kernel panics. -/
def Kernel.step (buffer : Framebuffer) (font : PsfFont) (beyond : Byte) (k : Kernel) :
    Event → Option Kernel
  | .interrupt scancode => (pagedStep beyond k.history (.key scancode)).map fun history =>
      { k with history := history, asleep := false }
  | .advance =>
      if k.asleep then some k
      else match k.phase with
        | .handler => (pagedStep beyond k.history .handler).map fun history =>
            { k with history := history, phase := .render }
        | .render => some { k with
            memory := TerminalRenderer.render ⟨font⟩ ⟨buffer⟩ k.terminal k.memory
            phase := .halt }
        | .halt => some { k with phase := .handler, asleep := !k.terminal.schedulerWork }

/-- A key that comes finds room, and the text that a call of `handler` makes fits. -/
def Admits (beyond : Byte) (k : Kernel) : Event → Prop
  | .interrupt scancode => Roomy beyond k.history (.key scancode)
  | .advance => k.asleep = false → k.phase = .handler → Fits k.terminal (spelled k.history)

instance (beyond : Byte) (k : Kernel) : ∀ event, Decidable (Admits beyond k event)
  | .interrupt _ => inferInstanceAs (Decidable (_ → _))
  | .advance => inferInstanceAs (Decidable (_ → _ → Fits _ _))

/-! ## What the screen shows -/

/-- The pixels of the text that the characters spell. -/
def spelledPoints (buffer : Framebuffer) (font : PsfFont) (memory : Memory) (t : Terminal)
    (chars : List Byte) : Set ℕ :=
  textPoints buffer font memory t.width.toNat t.height.toNat fun position =>
    (spell t.width.toNat space lineFeed chars).getD position 0

/-- The pixels of the last cell, which `init` does not clear and no text comes to. -/
def leftPoints (buffer : Framebuffer) (font : PsfFont) (memory : Memory) (t : Terminal) : Set ℕ :=
  textPoints buffer font memory t.width.toNat t.height.toNat fun position =>
    if position + 1 = t.bufferSize.toNat then t.cells .textBuffer position else 0

/-- The pixels of every text that was spelled on the way. -/
def everPoints (buffer : Framebuffer) (font : PsfFont) (memory : Memory) (t : Terminal)
    (chars : List Byte) : Set ℕ :=
  {point | ∃ early, early <+: chars ∧ point ∈ spelledPoints buffer font memory t early}

variable {buffer : Framebuffer} {font : PsfFont} {memory : Memory} {beyond : Byte}
  {t t' : Terminal} {chars : List Byte} {chr : Byte} {k k' : Kernel}

theorem spelledPoints_nil (t : Terminal) : spelledPoints buffer font memory t [] = ∅ := by
  rw [Set.eq_empty_iff_forall_notMem]
  rintro point ⟨y, -, x, -, hpoint⟩
  change point ∈ charPoints buffer font memory x y 0 at hpoint
  rwa [charPoints_zero] at hpoint

theorem everPoints_nil (t : Terminal) : everPoints buffer font memory t [] = ∅ := by
  rw [Set.eq_empty_iff_forall_notMem]
  rintro point ⟨early, hearly, hpoint⟩
  rw [List.prefix_nil.mp hearly, spelledPoints_nil] at hpoint
  exact hpoint

theorem everPoints_concat (t : Terminal) (chars : List Byte) (chr : Byte) :
    everPoints buffer font memory t (chars ++ [chr]) =
      spelledPoints buffer font memory t (chars ++ [chr]) ∪
        everPoints buffer font memory t chars := by
  ext point
  constructor
  · rintro ⟨early, hearly, hpoint⟩
    rcases List.prefix_concat_iff.mp hearly with rfl | hbefore
    · exact Set.mem_union_left _ hpoint
    · exact Set.mem_union_right _ ⟨early, hbefore, hpoint⟩
  · rintro (hpoint | ⟨early, hearly, hpoint⟩)
    · exact ⟨chars ++ [chr], List.prefix_refl _, hpoint⟩
    · exact ⟨early, hearly.trans (List.prefix_append _ _), hpoint⟩

theorem spelledPoints_subset (t : Terminal) (chars : List Byte) :
    spelledPoints buffer font memory t chars ⊆ everPoints buffer font memory t chars :=
  fun _ hpoint => ⟨chars, List.prefix_refl chars, hpoint⟩

/-- White pixels of every text on the way and of the last cell, and nothing else. -/
def Painted (buffer : Framebuffer) (font : PsfFont) (memory : Memory) (t : Terminal)
    (chars : List Byte) (memory' : Memory) : Prop :=
  (frameCanvas buffer).Paints
    (ink (everPoints buffer font memory t chars ∪ leftPoints buffer font memory t) white)
    memory memory'

/-- The texts up to `chars` have been drawn, or nothing has yet. -/
def Drawn (buffer : Framebuffer) (font : PsfFont) (memory : Memory) (t : Terminal)
    (chars : List Byte) (memory' : Memory) : Prop :=
  Painted buffer font memory t chars memory' ∨ chars = [] ∧ memory' = memory

/-- At most one character was consumed since. -/
def Follows (early chars : List Byte) : Prop := chars = early ∨ ∃ chr, chars = early ++ [chr]

theorem Drawn.rest {memory' : Memory} (hdrawn : Drawn buffer font memory t chars memory') :
    AgreeOutside (frame buffer) memory memory' := by
  rcases hdrawn with hpainted | ⟨-, rfl⟩
  · exact hpainted.rest
  · exact AgreeOutside.refl _ _

/-- The text is drawn over the texts before it. -/
theorem Drawn.next {early : List Byte} {memory' memory'' : Memory}
    (hdrawn : Drawn buffer font memory t early memory') (hfollows : Follows early chars)
    (hpaints : (frameCanvas buffer).Paints
      (ink (spelledPoints buffer font memory t chars ∪ leftPoints buffer font memory t) white)
      memory' memory'') : Painted buffer font memory t chars memory'' := by
  rcases hdrawn with hpainted | ⟨rfl, rfl⟩
  · have hstacked := hpainted.trans hpaints
    rw [ink_union, ← Set.union_union_distrib_right] at hstacked
    rcases hfollows with rfl | ⟨chr, rfl⟩
    · rwa [Set.union_eq_right.mpr (spelledPoints_subset t chars)] at hstacked
    · rwa [← everPoints_concat] at hstacked
  · have hfirst : everPoints buffer font memory' t chars = spelledPoints buffer font memory' t chars := by
      rcases hfollows with rfl | ⟨chr, rfl⟩
      · rw [everPoints_nil, spelledPoints_nil]
      · rw [everPoints_concat, everPoints_nil, Set.union_empty]
    rwa [Painted, hfirst]

/-! ## What every step keeps -/

/-- The history of a loop that began with the terminal `t`. -/
structure Live (t : Terminal) (h : History) : Prop where
  spells : Spells (t.cells .textBuffer (t.bufferSize.toNat - 1 : ℕ)) h
  delivers : Delivers h
  width : h.machine.terminal.width = t.width
  height : h.machine.terminal.height = t.height
  bufferSize : h.machine.terminal.bufferSize = t.bufferSize
  /-- The flag is set with the first character. -/
  flag : h.machine.terminal.schedulerWork = true ↔ h.consumed ≠ []
  /-- Before that the characters are waiting as they came. -/
  fresh : h.consumed = [] → h.machine.terminal.ii = 0 ∧ Queued h.machine.terminal h.enqueued []

variable {h h' : History}

theorem queued_of_zero {ahead behind : List Byte} (hqueued : Queued t ahead behind)
    (hii : t.ii = 0) : behind = [] := by
  have hle := hqueued.behind_le
  rw [hii] at hle
  exact List.length_eq_zero_iff.mp (Nat.le_zero.mp hle)

theorem live_key {scancode : Byte} (hlive : Live t h) (hroomy : Roomy beyond h (.key scancode))
    (hstep : h.step beyond (.key scancode) = some h') : Live t h' := by
  have hspells := spells_key hlive.spells hstep
  have hdelivers := delivers_step hlive.delivers hroomy hstep
  obtain ⟨hconsumed, ⟨hsame, henqueued⟩ | ⟨chr, i, henqueues, hfree, hput, henqueued⟩⟩ :=
    key_cases hstep
  · refine ⟨hspells, hdelivers, hsame ▸ hlive.width, hsame ▸ hlive.height,
      hsame ▸ hlive.bufferSize, ?_, ?_⟩
    · rw [hsame, hconsumed]
      exact hlive.flag
    · rw [hsame, hconsumed, henqueued]
      exact hlive.fresh
  · refine ⟨hspells, hdelivers, hput ▸ hlive.width, hput ▸ hlive.height,
      hput ▸ hlive.bufferSize, ?_, fun hnone => ?_⟩
    · rw [hput, hconsumed]
      exact hlive.flag
    · rw [hconsumed] at hnone
      obtain ⟨hii, hqueued⟩ := hlive.fresh hnone
      have hroom := hroomy (by simp [henqueues])
      rw [waiting_eq hqueued, List.nil_append] at hroom
      obtain ⟨ahead, behind, hqueued', happend⟩ := queued_enqueue hqueued
        (decode_ne_zero henqueues) hfree (by simpa using hroom) (.inl hii)
      obtain rfl := queued_of_zero hqueued' hii
      rw [List.append_nil, List.append_nil] at happend
      rw [hput, henqueued]
      exact ⟨hii, happend ▸ hqueued'⟩

theorem live_handler (hlive : Live t h) (hfits : Fits h.machine.terminal (spelled h))
    (hstep : h.step beyond .handler = some h') : Live t h' := by
  have hspells := spells_step hlive.spells (show TextFits h .handler from hfits) hstep
  have hroomy : Roomy beyond h .handler := fun hnone => absurd rfl hnone
  have hdelivers := delivers_step hlive.delivers hroomy hstep
  obtain ⟨hhandler, henqueued, hconsumed⟩ := handler_cases hstep
  have hdrained := (handler_drains hhandler).1
  obtain ⟨hheight, hflag⟩ := handler_frame hlive.spells.idle hhandler
  refine ⟨hspells, hdelivers, hdrained.width.trans hlive.width, hheight.trans hlive.height,
    hdrained.bufferSize.trans hlive.bufferSize, ?_, fun hnone => ?_⟩
  · rw [hflag, hconsumed, Bool.or_eq_true, hlive.flag, bne_iff_ne, consumes]
    split_ifs with hzero
    · simp [hzero]
    · exact iff_of_true (Or.inr hzero) (by simp)
  · rw [hconsumed, List.append_eq_nil_iff] at hnone
    obtain ⟨hfirst, htaken⟩ := hnone
    obtain ⟨hii, hqueued⟩ := hlive.fresh hfirst
    have hzero : h.machine.terminal.nextInput = 0 := by
      by_contra hsome
      rw [consumes, if_neg hsome] at htaken
      exact absurd htaken (by simp)
    obtain ⟨ahead, behind, hqueued', hsame⟩ := queued_handler hqueued hhandler
    have hqueue := hdrained.queue
    rw [drain, if_pos (show h.machine.terminal.cells .inBuffer _ = 0 from hzero),
      Prod.mk.injEq] at hqueue
    obtain rfl := queued_of_zero hqueued' hqueue.2
    rw [if_pos hzero, Option.toList_none, List.nil_append, List.append_nil, List.append_nil]
      at hsame
    rw [henqueued, hsame]
    exact ⟨hqueue.2, hqueued'⟩

/-- A terminal whose cells are rows on the screen. -/
structure Fitting (buffer : Framebuffer) (font : PsfFont) (t : Terminal) : Prop where
  screen : TerminalScreen buffer font
  onScreen : OnScreen buffer t
  size : t.bufferSize.toNat = t.width.toNat * t.height.toNat

/-- `render` draws the text that is spelled, and the last cell. -/
theorem Live.render_paints {memory' : Memory} (hlive : Live t h) (hfitting : Fitting buffer font t)
    (hrest : AgreeOutside (frame buffer) memory memory') :
    (frameCanvas buffer).Paints
      (ink (spelledPoints buffer font memory t h.consumed ∪ leftPoints buffer font memory t) white)
      memory' (TerminalRenderer.render ⟨font⟩ ⟨buffer⟩ h.machine.terminal memory') := by
  have hon : OnScreen buffer h.machine.terminal :=
    ⟨hlive.width ▸ hfitting.onScreen.columns, hlive.height ▸ hfitting.onScreen.rows⟩
  have hpaints := TerminalRender.render_paints hfitting.screen hon hrest
  have hcontents := hlive.spells.contents
  have hshort := (hcontents.below le_rfl).1
  rw [spelled, hlive.width, hlive.bufferSize] at hshort
  have hpoints : textPoints buffer font memory h.machine.terminal.width.toNat
      h.machine.terminal.height.toNat
        (fun position => h.machine.terminal.cells .textBuffer position) =
      spelledPoints buffer font memory t h.consumed ∪ leftPoints buffer font memory t := by
    rw [hlive.width, hlive.height, spelledPoints, leftPoints]
    refine textPoints_union fun position hposition => ?_
    rw [← hfitting.size] at hposition
    by_cases hlast : position + 1 = t.bufferSize.toNat
    · have hcell := hcontents.last_cell
      rw [hlive.bufferSize, show t.bufferSize.toNat - 1 = position by omega] at hcell
      refine .inr ⟨?_, List.getD_eq_default _ _ (by omega)⟩
      rw [if_pos hlast]
      exact hcell
    · have hcell := hcontents.cell position (by rw [hlive.bufferSize]; omega)
      rw [spelled, hlive.width] at hcell
      exact .inl ⟨hcell, if_neg hlast⟩
  rwa [hpoints] at hpaints

/-- What is on the screen at each of the three statements. -/
def ShownAt (buffer : Framebuffer) (font : PsfFont) (memory : Memory) (t : Terminal)
    (chars : List Byte) (memory' : Memory) : Phase → Prop
  | .handler => Drawn buffer font memory t chars memory'
  | .render => ∃ early, Follows early chars ∧ Drawn buffer font memory t early memory'
  | .halt => Painted buffer font memory t chars memory'

structure Sound (buffer : Framebuffer) (font : PsfFont) (memory : Memory) (t : Terminal)
    (k : Kernel) : Prop where
  live : Live t k.history
  shown : ShownAt buffer font memory t k.history.consumed k.memory k.phase
  /-- The processor halts only before the first character, after the blank screen is drawn. -/
  asleep : k.asleep = true → k.phase = .handler ∧ k.history.consumed = [] ∧
    Painted buffer font memory t [] k.memory

theorem Follows.of_handler (hstep : h.step beyond .handler = some h') :
    Follows h.consumed h'.consumed := by
  rw [(handler_cases hstep).2.2]
  cases consumes h.machine .handler with
  | none => exact .inl (List.append_nil _)
  | some chr => exact .inr ⟨chr, rfl⟩

theorem sound_interrupt {scancode : Byte} (hsound : Sound buffer font memory t k)
    (hroomy : Roomy beyond k.history (.key scancode))
    (hstep : k.step buffer font beyond (.interrupt scancode) = some k') :
    Sound buffer font memory t k' := by
  obtain ⟨history, hpaged, rfl⟩ := Option.map_eq_some_iff.mp hstep
  have hkey := step_of_paged hpaged
  refine ⟨live_key hsound.live hroomy hkey, ?_, fun hasleep => absurd hasleep Bool.false_ne_true⟩
  change ShownAt buffer font memory t history.consumed k.memory k.phase
  rw [(key_cases hkey).1]
  exact hsound.shown

/-- The statement that an awake processor executes. -/
theorem advance_cases (hstep : k.step buffer font beyond .advance = some k')
    (hawake : k.asleep = false) :
    (k.phase = .handler ∧ ∃ history, pagedStep beyond k.history .handler = some history ∧
        k' = { k with history := history, phase := .render }) ∨
      (k.phase = .render ∧ k' = { k with
        memory := TerminalRenderer.render ⟨font⟩ ⟨buffer⟩ k.terminal k.memory, phase := .halt }) ∨
      k.phase = .halt ∧
        k' = { k with phase := .handler, asleep := !k.terminal.schedulerWork } := by
  rw [Kernel.step, if_neg (by simp [hawake])] at hstep
  cases hphase : k.phase with
  | handler =>
      rw [hphase] at hstep
      obtain ⟨history, hhandler, rfl⟩ := Option.map_eq_some_iff.mp hstep
      exact .inl ⟨rfl, history, hhandler, rfl⟩
  | render =>
      rw [hphase] at hstep
      exact .inr (.inl ⟨rfl, (Option.some.inj hstep).symm⟩)
  | halt =>
      rw [hphase] at hstep
      exact .inr (.inr ⟨rfl, (Option.some.inj hstep).symm⟩)

theorem step_asleep (hasleep : k.asleep = true) :
    k.step buffer font beyond .advance = some k := if_pos hasleep

theorem sound_advance (hfitting : Fitting buffer font t) (hsound : Sound buffer font memory t k)
    (hadmits : Admits beyond k .advance)
    (hstep : k.step buffer font beyond .advance = some k') : Sound buffer font memory t k' := by
  cases hasleep : k.asleep with
  | true =>
      rw [step_asleep hasleep] at hstep
      exact Option.some.inj hstep ▸ hsound
  | false =>
      obtain ⟨hlive, hshown, -⟩ := hsound
      rcases advance_cases hstep hasleep with
        ⟨hphase, history, hpaged, rfl⟩ | ⟨hphase, rfl⟩ | ⟨hphase, rfl⟩
      · rw [hphase] at hshown
        have hhandler := step_of_paged hpaged
        refine ⟨live_handler hlive (hadmits hasleep hphase) hhandler,
          ⟨_, Follows.of_handler hhandler, hshown⟩, fun hnone => ?_⟩
        exact absurd (hasleep.symm.trans hnone) Bool.false_ne_true
      · rw [hphase] at hshown
        obtain ⟨early, hfollows, hdrawn⟩ := hshown
        refine ⟨hlive, hdrawn.next hfollows (hlive.render_paints hfitting hdrawn.rest),
          fun hnone => ?_⟩
        exact absurd (hasleep.symm.trans hnone) Bool.false_ne_true
      · rw [hphase] at hshown
        refine ⟨hlive, .inl hshown, fun hhalted => ?_⟩
        have hnone : k.history.consumed = [] := by
          by_contra hsome
          have hwork : k.terminal.schedulerWork = true := hlive.flag.mpr hsome
          change (!k.terminal.schedulerWork) = true at hhalted
          rw [hwork] at hhalted
          exact Bool.false_ne_true hhalted
        exact ⟨rfl, hnone, hnone ▸ hshown⟩

theorem sound_step {event : Event} (hfitting : Fitting buffer font t)
    (hsound : Sound buffer font memory t k) (hadmits : Admits beyond k event)
    (hstep : k.step buffer font beyond event = some k') : Sound buffer font memory t k' := by
  cases event with
  | interrupt scancode => exact sound_interrupt hsound hadmits hstep
  | advance => exact sound_advance hfitting hsound hadmits hstep

/-! ## Runs -/

variable {pool : Buffer → ℤ → Byte} {keyboard : Keyboard} {events : List Event} {final : Kernel}

theorem fitting_init (hscreen : TerminalScreen buffer font) (pool : Buffer → ℤ → Byte) :
    Fitting buffer font (.init buffer pool) := by
  have hcolumns := hscreen.columns
  have hrows := hscreen.rows
  have hwidth := buffer.width.isLt
  have hheight := buffer.height.isLt
  refine ⟨hscreen, ⟨?_, ?_⟩, (toNat_bufferSize_init buffer pool).1⟩
  · change (((buffer.width / 8 - 1).setWidth 64).toNat + 1) * 8 ≤ _
    rw [BitVec.toNat_setWidth, BitVec.toNat_sub, BitVec.toNat_udiv,
      show (8 : Word32).toNat = 8 from rfl, show (1 : Word32).toNat = 1 from rfl]
    omega
  · change (((buffer.height / 16 - 1).setWidth 64).toNat + 1) * 16 ≤ _
    rw [BitVec.toNat_setWidth, BitVec.toNat_sub, BitVec.toNat_udiv,
      show (16 : Word32).toNat = 16 from rfl, show (1 : Word32).toNat = 1 from rfl]
    omega

theorem sound_start (hsize : 1 < (Terminal.init buffer pool).reach)
    (hempty : InputEmpty (.init buffer pool)) (keyboard : Keyboard) (memory : Memory) :
    Sound buffer font memory (.init buffer pool) (.start ⟨.init buffer pool, keyboard⟩ memory) := by
  have hle : (Terminal.init buffer pool).reach ≤ (Terminal.init buffer pool).bufferSize.toNat :=
    min_le_left _ _
  have hpos : 0 < (Terminal.init buffer pool).bufferSize := by
    rw [BitVec.lt_def]
    exact (show 0 < _ by omega)
  have hdelivers : Delivers (.start ⟨.init buffer pool, keyboard⟩) :=
    delivers_start hpos rfl hempty
  refine ⟨⟨spells_init hsize keyboard, hdelivers, rfl, rfl, rfl, ?_, fun _ => ⟨rfl, ?_⟩⟩,
    .inr ⟨rfl, rfl⟩, fun hasleep => absurd hasleep Bool.false_ne_true⟩
  · exact iff_of_false Bool.false_ne_true (fun hsome => hsome rfl)
  · refine stored_nil (show 0 < (Terminal.init buffer pool).reach by omega) ?_
    exact fun position hposition => hempty position (Nat.lt_of_lt_of_le hposition hle)

/-- A screen of 40 by 48 pixels, which has two rows of four characters. -/
def smallBuffer : Framebuffer := ⟨0x80000000, 7680, 40, 48, 40⟩

def smallFont : PsfFont := ⟨16, 0x90000000⟩

/-- The loop on that screen, with blank memory. -/
def smallStart : Kernel :=
  .start ⟨.init smallBuffer fun _ _ => 0, ⟨false, false, false⟩⟩ fun _ => 0

theorem smallScreen : TerminalScreen smallBuffer smallFont where
  mode := ⟨by decide, by decide, by decide, by decide⟩
  display := ⟨by decide, by decide, by decide⟩
  columns := by decide
  rows := by decide
  apart := Drawing.fontApart_of_behind (by decide) (by decide)

/-- The processor is halted only while no character has been taken: the characters typed are
all waiting as they came, and nothing has been drawn but the last cell. -/
theorem halted_before_first (hscreen : TerminalScreen buffer font)
    (hsize : 1 < (Terminal.init buffer pool).reach) (hempty : InputEmpty (.init buffer pool))
    (hadmits : Meets (Kernel.step buffer font beyond) (Admits beyond)
      (.start ⟨.init buffer pool, keyboard⟩ memory) events)
    (hrun : run (Kernel.step buffer font beyond)
      (.start ⟨.init buffer pool, keyboard⟩ memory) events = some final)
    (hasleep : final.asleep = true) :
    final.history.consumed = [] ∧ waiting final.terminal = final.history.enqueued ∧
      (frameCanvas buffer).Paints (ink (leftPoints buffer font memory (.init buffer pool)) white)
        memory final.memory := by
  have hsound := run_meets_invariant (Sound buffer font memory (.init buffer pool))
    (sound_start hsize hempty keyboard memory)
    (fun _ _ _ => sound_step (fitting_init hscreen pool)) hadmits hrun
  obtain ⟨-, hnone, hpainted⟩ := hsound.asleep hasleep
  rw [Painted, everPoints_nil, Set.empty_union] at hpainted
  exact ⟨hnone, waiting_eq (hsound.live.fresh hnone).2, hpainted⟩

/-- `a` is typed while the blank screen is drawn: the processor halts, and `a` waits. -/
theorem halted_before_first_missed :
    ∃ final, run (Kernel.step smallBuffer smallFont 0) smallStart
        [.advance, .interrupt 0x1E, .advance, .advance] = some final ∧
      final.asleep = true ∧ final.history.enqueued = literal "a" ∧
      final.history.consumed = [] ∧ waiting final.terminal = final.history.enqueued ∧
      (frameCanvas smallBuffer).Paints (ink (leftPoints smallBuffer smallFont (fun _ => 0)
        (.init smallBuffer fun _ _ => 0)) white) (fun _ => 0) final.memory := by
  have hlists : (run (Kernel.step smallBuffer smallFont 0) smallStart
      [.advance, .interrupt 0x1E, .advance, .advance]).map (fun final =>
        (final.asleep, final.history.enqueued)) = some (true, literal "a") := by
    decide +kernel
  obtain ⟨final, hrun, hfinal⟩ := Option.map_eq_some_iff.mp hlists
  obtain ⟨hasleep, henqueued⟩ := Prod.mk.injEq .. ▸ hfinal
  exact ⟨final, hrun, hasleep, henqueued, halted_before_first smallScreen (by decide +kernel)
    (by decide +kernel) (by decide +kernel) hrun hasleep⟩

/-! ## Everything typed appears -/

/-- One turn of the loop without an interrupt. -/
def turn : List Event := List.replicate 3 .advance

/-- Everything typed was taken, and the screen shows it. -/
structure Settled (buffer : Framebuffer) (font : PsfFont) (memory : Memory) (t : Terminal)
    (k : Kernel) : Prop where
  sound : Sound buffer font memory t k
  phase : k.phase = .handler
  taken : waiting k.terminal = []
  painted : Painted buffer font memory t k.history.consumed k.memory

/-- A turn of an awake processor is a call of `handler` and one of `render`. -/
theorem turn_cases (hfitting : Fitting buffer font t) (hsound : Sound buffer font memory t k)
    (hphase : k.phase = .handler) (hawake : k.asleep = false)
    (hadmits : Meets (Kernel.step buffer font beyond) (Admits beyond) k turn)
    (hrun : run (Kernel.step buffer font beyond) k turn = some k') :
    Sound buffer font memory t k' ∧ k'.phase = .handler ∧
      k.history.step beyond .handler = some k'.history ∧
      Painted buffer font memory t k'.history.consumed k'.memory := by
  change Meets (Kernel.step buffer font beyond) _ k [.advance, .advance, .advance] at hadmits
  change run (Kernel.step buffer font beyond) k [.advance, .advance, .advance] = _ at hrun
  rw [run_cons, Option.bind_eq_some_iff] at hrun
  obtain ⟨handled, hhandled, hrun⟩ := hrun
  rw [run_cons, Option.bind_eq_some_iff] at hrun
  obtain ⟨rendered, hrendered, hrun⟩ := hrun
  rw [run_cons, Option.bind_eq_some_iff] at hrun
  obtain ⟨last, hlast, hrun⟩ := hrun
  obtain rfl := Option.some.inj hrun
  have hsound₁ := sound_advance hfitting hsound hadmits.1 hhandled
  have hsound₂ := sound_advance hfitting hsound₁ (hadmits.2 _ hhandled).1 hrendered
  have hsound₃ := sound_advance hfitting hsound₂ ((hadmits.2 _ hhandled).2 _ hrendered).1 hlast
  rcases advance_cases hhandled hawake with
    ⟨-, history, hstep, rfl⟩ | ⟨hother, -⟩ | ⟨hother, -⟩
  · have hhandler := step_of_paged hstep
    rcases advance_cases hrendered hawake with ⟨hother, -⟩ | ⟨-, rfl⟩ | ⟨hother, -⟩
    · cases hother
    · have hpainted := hsound₂.shown
      rcases advance_cases hlast hawake with ⟨hother, -⟩ | ⟨hother, -⟩ | ⟨-, rfl⟩
      · cases hother
      · cases hother
      · exact ⟨hsound₃, rfl, hhandler, hpainted⟩
    · cases hother
  · rw [hphase] at hother
    cases hother
  · rw [hphase] at hother
    cases hother

/-- No character comes without an interrupt. -/
theorem waiting_handler_le (hlive : Live t h) (hstep : h.step beyond .handler = some h') :
    (waiting h'.machine.terminal).length ≤ (waiting h.machine.terminal).length := by
  obtain ⟨ahead, behind, hqueued⟩ := hlive.delivers.exists_queued
  obtain ⟨ahead', behind', hqueued', htaken⟩ :=
    queued_handler hqueued (handler_cases hstep).1
  have hlength := congrArg List.length htaken
  rw [List.length_append, List.length_append, List.length_append] at hlength
  rw [waiting_eq hqueued, waiting_eq hqueued', List.length_append, List.length_append]
  omega

/-- A kernel that has settled stays so. -/
theorem settled_turns (hfitting : Fitting buffer font t) (turns : ℕ)
    (hsettled : Settled buffer font memory t k)
    (hadmits : Meets (Kernel.step buffer font beyond) (Admits beyond) k
      (List.replicate (3 * turns) .advance))
    (hrun : run (Kernel.step buffer font beyond) k (List.replicate (3 * turns) .advance) =
      some k') : Settled buffer font memory t k' := by
  induction turns generalizing k with
  | zero => exact Option.some.inj hrun ▸ hsettled
  | succ turns ih =>
      rw [Nat.mul_succ, Nat.add_comm, ← List.replicate_append_replicate] at hadmits hrun
      rw [run_append, Option.bind_eq_some_iff] at hrun
      obtain ⟨next, hturn, hrest⟩ := hrun
      refine ih ?_ (hadmits.right hturn) hrest
      cases hasleep : k.asleep with
      | true =>
          have hsame : run (Kernel.step buffer font beyond) k turn = some k := by
            change run (Kernel.step buffer font beyond) k [.advance, .advance, .advance] = _
            simp only [run_cons, run_nil, step_asleep hasleep, Option.bind_some]
          exact Option.some.inj (hsame.symm.trans hturn) ▸ hsettled
      | false =>
          obtain ⟨hsound, hphase, hstep, hpainted⟩ :=
            turn_cases hfitting hsettled.sound hsettled.phase hasleep hadmits.left hturn
          have hle := waiting_handler_le hsettled.sound.live hstep
          rw [show waiting k.history.machine.terminal = [] from hsettled.taken] at hle
          exact ⟨hsound, hphase, List.length_eq_zero_iff.mp (Nat.le_zero.mp hle), hpainted⟩

/-- The loop halts only if there was nothing to take. -/
theorem due_eq_zero_of_none (hlive : Live t h) (hstep : h.step beyond .handler = some h')
    (hnone : h'.consumed = []) : due h.machine.terminal = 0 := by
  rw [(handler_cases hstep).2.2, List.append_eq_nil_iff] at hnone
  obtain ⟨hii, hqueued⟩ := hlive.fresh hnone.1
  have hzero : h.machine.terminal.nextInput = 0 := by
    by_contra hsome
    have htaken := hnone.2
    rw [consumes, if_neg hsome] at htaken
    exact absurd htaken (by simp)
  have hbehind : ¬ LeftBehind h.machine.terminal := by
    rintro ⟨position, hposition, -⟩
    rw [hii] at hposition
    exact Nat.not_lt_zero _ hposition
  rw [due, if_neg hbehind, waiting_of_rewind hqueued hzero hbehind]
  rfl

theorem turns_settle (hfitting : Fitting buffer font t) (turns : ℕ)
    (hsound : Sound buffer font memory t k) (hphase : k.phase = .handler)
    (hawake : k.asleep = false) (hdue : due k.terminal ≤ turns + 1)
    (hadmits : Meets (Kernel.step buffer font beyond) (Admits beyond) k
      (List.replicate (3 * (turns + 1)) .advance))
    (hrun : run (Kernel.step buffer font beyond) k (List.replicate (3 * (turns + 1)) .advance) =
      some k') : Settled buffer font memory t k' := by
  induction turns generalizing k with
  | zero =>
      obtain ⟨hsound', hphase', hstep, hpainted⟩ :=
        turn_cases hfitting hsound hphase hawake hadmits hrun
      obtain ⟨ahead, behind, hqueued⟩ := hsound.live.delivers.exists_queued
      have hless := due_handler hqueued (handler_cases hstep).1
      change due k'.terminal ≤ due k.terminal - 1 at hless
      exact ⟨hsound', hphase', waiting_eq_nil (by omega), hpainted⟩
  | succ turns ih =>
      rw [Nat.mul_succ, Nat.add_comm, ← List.replicate_append_replicate] at hadmits hrun
      rw [run_append, Option.bind_eq_some_iff] at hrun
      obtain ⟨next, hturn, hrest⟩ := hrun
      obtain ⟨hsound', hphase', hstep, hpainted⟩ :=
        turn_cases hfitting hsound hphase hawake hadmits.left hturn
      obtain ⟨ahead, behind, hqueued⟩ := hsound.live.delivers.exists_queued
      have hless := due_handler hqueued (handler_cases hstep).1
      change due next.terminal ≤ due k.terminal - 1 at hless
      cases hasleep : next.asleep with
      | false =>
          exact ih hsound' hphase' hasleep (by omega) (hadmits.right hturn) hrest
      | true =>
          have hnone := due_eq_zero_of_none hsound.live hstep (hsound'.asleep hasleep).2.1
          change due k.terminal = 0 at hnone
          refine settled_turns hfitting (turns + 1) ?_ (hadmits.right hturn) hrest
          exact ⟨hsound', hphase', waiting_eq_nil (by omega), hpainted⟩

/-- A step that is admitted does not fail. -/
theorem step_serving {last : Byte} {event : Event} (hserving : Serving last k.history)
    (hadmits : Admits beyond k event) :
    ∃ k', k.step buffer font beyond event = some k' ∧ Serving last k'.history := by
  cases event with
  | interrupt scancode =>
      obtain ⟨history, hstep, hserving'⟩ := @serving_step _ beyond _ (.key scancode) hserving
        ⟨hadmits, trivial⟩
      exact ⟨_, Option.map_eq_some_iff.mpr ⟨history, hstep, rfl⟩, hserving'⟩
  | advance =>
      cases hasleep : k.asleep with
      | true => exact ⟨k, step_asleep hasleep, hserving⟩
      | false =>
          rw [Kernel.step, if_neg (by simp [hasleep])]
          cases hphase : k.phase with
          | handler =>
              obtain ⟨history, hstep, hserving'⟩ := @serving_step _ beyond _ .handler hserving
                ⟨fun hnone => absurd rfl hnone, hadmits hasleep hphase⟩
              exact ⟨_, Option.map_eq_some_iff.mpr ⟨history, hstep, rfl⟩, hserving'⟩
          | render => exact ⟨_, rfl, hserving⟩
          | halt => exact ⟨_, rfl, hserving⟩

/-- A terminal on a screen is small enough for an `int`. -/
theorem bufferSize_lt (hscreen : TerminalScreen buffer font) (pool : Buffer → ℤ → Byte) :
    (Terminal.init buffer pool).bufferSize.toNat < 2 ^ 31 := by
  obtain ⟨-, ⟨hcolumns, hrows⟩, hsize⟩ := fitting_init hscreen pool
  have hwidth := hscreen.mode.width_le
  have hfits := hscreen.mode.fits
  have hsmall := hscreen.mode.small
  have hcells : (Terminal.init buffer pool).width.toNat * (Terminal.init buffer pool).height.toNat ≤
      buffer.ppsl.toNat * buffer.height.toNat := Nat.mul_le_mul (by omega) (by omega)
  rw [Nat.mul_comm buffer.ppsl.toNat] at hcells
  omega

end RedX.MainLoop
