import RedX.Core.Progress
import RedX.Core.Simulation
import RedX.Interrupts.Pic
import RedX.Terminal.MainLoop

/-!
# From the keyboard to the main loop

`keyboardHandler` reads the scancode, passes it on and ends the interrupt.  The keyboard
sends bytes while the main loop runs; its controller holds one at a time, and the processor
takes the interrupt when it is offered one and no handler runs.  Every scancode reaches
`handleKeyboard` once and in the order sent, if the keyboard controller was empty when
`interuptInit` programmed the pair.  If it was not, its line never rises again, and no key is
ever served.
-/

namespace RedX.KeyboardInterrupt

open RedX.MachineWord
open RedX.PartialRun
open RedX.Simulation
open RedX.Progress
open RedX.PortIo
open RedX.InterruptControllers
open RedX.TextRenderer
open RedX.MainLoop

/-- The statement of `keyboardHandler` that the processor executes next. -/
inductive Stage
  /-- The handler does not run. -/
  | idle
  | read
  | handle (scancode : Byte)
  | finish
  deriving DecidableEq

structure System where
  board : Board
  stage : Stage
  kernel : Kernel

/-- The system at the start of the main loop, where no interrupt has come since `interuptInit`
programmed the pair. -/
def System.start (board : Board) (kernel : Kernel) : System :=
  ⟨(picInit.run ports board).2, .idle, kernel⟩

inductive Event
  /-- The keyboard sends a byte. -/
  | send (scancode : Byte)
  /-- The keyboard controller takes a byte over. -/
  | transfer
  /-- Another device raises its line. -/
  | raise (slave : Bool) (line : Fin 8)
  /-- The processor takes the interrupt that it is offered, if any. -/
  | accept
  /-- The next statement of `keyboardHandler`, if it runs. -/
  | serve
  /-- The next statement of the main loop, if no handler runs. -/
  | advance

/-- The vector whose gate `interuptInit` sets to `keyboardHandler`. -/
def keyboardVector : Byte := 0x21

/-- `none` where an interrupt is taken whose gate is not that of `keyboardHandler`, or where
the kernel's own step is. -/
def System.step (buffer : Framebuffer) (font : PsfFont) (beyond : Byte) (s : System) :
    Event → Option System
  | .send scancode => some { s with board := { s.board with queue := s.board.queue ++ [scancode] } }
  | .transfer => some { s with board := s.board.transfer }
  | .raise slave line => some { s with board := s.board.raise slave line }
  | .accept =>
      match s.stage, s.board.acknowledge with
      | .idle, some (vector, board) =>
          if vector = keyboardVector then some { s with board := board, stage := .read } else none
      | _, _ => some s
  | .serve =>
      match s.stage with
      | .idle => some s
      | .read =>
          let result := (inb 0x60).run ports s.board
          some { s with board := result.2, stage := .handle result.1 }
      | .handle scancode =>
          (s.kernel.step buffer font beyond (.interrupt scancode)).map fun kernel =>
            { s with kernel := kernel, stage := .finish }
      | .finish => some { s with board := (endMaster.run ports s.board).2, stage := .idle }
  | .advance =>
      match s.stage with
      | .idle => (s.kernel.step buffer font beyond .advance).map fun kernel =>
          { s with kernel := kernel }
      | _ => some s

/-- Lines 1 and 2 of the first controller are the keyboard's and the second controller's; the
mouse, on line 4 of the second one, is never set up. -/
def Wired : Event → Prop
  | .raise true line => line.val ≠ 4
  | .raise false line => line.val ≠ 1 ∧ line.val ≠ 2
  | _ => True

/-- What a step of the system is for the main loop. -/
def loopEvents (s : System) : Event → List MainLoop.Event
  | .serve =>
      match s.stage with
      | .handle scancode => [.interrupt scancode]
      | _ => []
  | .advance => if s.stage = .idle then [.advance] else []
  | _ => []

def sent : Event → List Byte
  | .send scancode => [scancode]
  | _ => []

/-- The scancode that an event of the main loop handles. -/
def scancode? : MainLoop.Event → Option Byte
  | .interrupt scancode => some scancode
  | .advance => none

/-- The bytes that were sent and not handled: in the handler, in the keyboard controller and
in the keyboard. -/
def System.unserved (s : System) : List Byte :=
  (match s.stage with
    | .handle scancode => [scancode]
    | _ => []) ++ (if s.board.full then [s.board.data] else []) ++ s.board.queue

variable {buffer : Framebuffer} {font : PsfFont} {beyond : Byte} {s s' : System} {event : Event}
  {events : List Event} {board : Board} {master slave : Pic}

/-! ## The pair while the kernel runs -/

/-- The pair as it was programmed, and nothing but the keyboard asks on an open line. -/
structure Guarded (master slave : Pic) : Prop where
  vector : master.vector = 0x20
  mask : master.mask = 0b11111001
  slaveMask : slave.mask = 0b11101111
  cascade : 2 ∉ master.request
  mouse : 4 ∉ slave.request

theorem guarded_start (board : Board) (kernel : Kernel) :
    Guarded (System.start board kernel).board.master (System.start board kernel).board.slave := by
  rw [System.start, run_picInit]
  exact ⟨rfl, rfl, rfl, Finset.notMem_empty 2, Finset.notMem_empty 4⟩

/-- What does not make line 2 of the first controller ask keeps the pair guarded. -/
theorem Guarded.congr {master' : Pic} (hguarded : Guarded master slave)
    (hvector : master'.vector = master.vector) (hmask : master'.mask = master.mask)
    (hcascade : 2 ∈ master'.request → 2 ∈ master.request) : Guarded master' slave :=
  ⟨hvector.trans hguarded.vector, hmask.trans hguarded.mask, hguarded.slaveMask,
    mt hcascade hguarded.cascade, hguarded.mouse⟩

theorem Guarded.slave_next (hguarded : Guarded master slave) :
    slave.next (· ∈ slave.request) = none := by
  have hclosed : ∀ line : Fin 8, line ≠ 4 → (0b11101111 : Byte).getLsbD line = true := by decide
  rw [Pic.next, firstLine, List.find?_eq_none]
  intro line _
  by_cases hline : line = 4
  · subst hline
    simp [hguarded.mouse]
  · rw [hguarded.slaveMask, hclosed line hline, Bool.not_true, Bool.and_false, Bool.false_and]
    exact Bool.false_ne_true

theorem firstLine_one {lines : Fin 8 → Bool} (hother : ∀ line, line ≠ 1 → lines line = false) :
    firstLine lines = if lines 1 then some 1 else none := by
  have hlines : lines = fun line => decide (line = 1) && lines 1 := by
    funext line
    by_cases hline : line = 1
    · subst hline
      rw [decide_eq_true rfl, Bool.true_and]
    · rw [hother line hline, decide_eq_false hline, Bool.false_and]
  rw [hlines]
  cases lines 1 <;> rfl

/-- The keyboard's line is the only one that is served. -/
theorem Guarded.master_next (hguarded : Guarded master slave) :
    master.next (· ∈ master.request) =
      if 1 ∈ master.request ∧ ∀ other ∈ master.service, 1 < other then some 1 else none := by
  have hclosed : ∀ line : Fin 8, line ≠ 1 → line ≠ 2 →
      (0b11111001 : Byte).getLsbD line = true := by decide
  rw [Pic.next, firstLine_one, hguarded.mask]
  · simp
  · intro line hline
    by_cases htwo : line = 2
    · subst htwo
      rw [decide_eq_false hguarded.cascade, Bool.false_and, Bool.false_and]
    · rw [hguarded.mask, hclosed line hline htwo, Bool.not_true, Bool.and_false, Bool.false_and]

theorem Guarded.acknowledge (hguarded : Guarded board.master board.slave) :
    board.acknowledge =
      if 1 ∈ board.master.request ∧ ∀ other ∈ board.master.service, 1 < other then
        some (keyboardVector, { board with master := board.master.take 1 })
      else none := by
  simp only [Board.acknowledge, hguarded.slave_next, Option.isSome_none, Bool.and_false,
    Bool.or_false, hguarded.master_next]
  split_ifs
  · rw [Option.map_some, if_neg (by decide), Pic.vectorOf, hguarded.vector]
    rfl
  · rfl

/-! ## Another device's line -/

theorem raise_frame (board : Board) (slave : Bool) (line : Fin 8) :
    (board.raise slave line).master.service = board.master.service ∧
      (board.raise slave line).full = board.full ∧
      (board.raise slave line).data = board.data ∧
      (board.raise slave line).queue = board.queue := by
  cases slave <;> exact ⟨rfl, rfl, rfl, rfl⟩

theorem asks_raise (board : Board) {slave : Bool} {line : Fin 8}
    (hwired : Wired (.raise slave line)) :
    1 ∈ (board.raise slave line).master.request ↔ 1 ∈ board.master.request := by
  cases slave with
  | true => exact Iff.rfl
  | false =>
      refine Finset.mem_insert.trans (or_iff_right fun hline => ?_)
      exact hwired.1 (congrArg Fin.val hline.symm)

theorem Guarded.raise {slave : Bool} {line : Fin 8}
    (hguarded : Guarded board.master board.slave) (hwired : Wired (.raise slave line)) :
    Guarded (board.raise slave line).master (board.raise slave line).slave := by
  cases slave with
  | true =>
      refine ⟨hguarded.vector, hguarded.mask, hguarded.slaveMask, hguarded.cascade, ?_⟩
      intro hmouse
      rcases Finset.mem_insert.mp hmouse with hline | hmouse
      · exact hwired (congrArg Fin.val hline.symm)
      · exact hguarded.mouse hmouse
  | false =>
      refine hguarded.congr rfl rfl fun htwo => ?_
      exact (Finset.mem_insert.mp htwo).resolve_left fun hline =>
        hwired.2 (congrArg Fin.val hline.symm)

/-! ## The protocol -/

/-- What is in service and what asks, for each statement of the handler. -/
structure Steady (s : System) : Prop where
  guarded : Guarded s.board.master s.board.slave
  service : s.board.master.service = if s.stage = .idle then ∅ else {1}
  asks : 1 ∈ s.board.master.request ↔ s.board.full = true ∧ s.stage ≠ .read
  read : s.stage = .read → s.board.full = true

theorem steady_start (board : Board) (kernel : Kernel) (hservice : board.master.service = ∅)
    (hempty : board.full = false) : Steady (.start board kernel) := by
  refine ⟨guarded_start board kernel, hservice, ?_, fun hread => nomatch hread⟩
  refine iff_of_false (Finset.notMem_empty 1) (fun hasks => ?_)
  exact Bool.false_ne_true (hempty.symm.trans hasks.1)

/-- The processor takes the keyboard's interrupt where a byte waits and no handler runs. -/
theorem Steady.accept (hsteady : Steady s) : s.step buffer font beyond .accept =
    some (if s.stage = .idle ∧ s.board.full = true then
      { s with board := { s.board with master := s.board.master.take 1 }, stage := .read }
    else s) := by
  cases hstage : s.stage with
  | idle =>
      have hservice := hsteady.service
      rw [if_pos hstage] at hservice
      have hasks : 1 ∈ s.board.master.request ↔ s.board.full = true := by
        rw [hsteady.asks, hstage]
        simp
      simp only [System.step, hstage, hsteady.guarded.acknowledge, hservice, hasks]
      by_cases hfull : s.board.full = true
      · simp [hfull]
      · simp [hfull]
  | read => simp [System.step, hstage]
  | handle scancode => simp [System.step, hstage]
  | finish => simp [System.step, hstage]

theorem Steady.congr_kernel (hsteady : Steady s) (kernel : Kernel) :
    Steady { s with kernel := kernel } :=
  ⟨hsteady.guarded, hsteady.service, hsteady.asks, hsteady.read⟩

theorem Steady.transfer (hsteady : Steady s) : Steady { s with board := s.board.transfer } := by
  unfold Board.transfer
  cases hfull : s.board.full with
  | true => exact hsteady
  | false =>
      cases hqueue : s.board.queue with
      | nil => exact hsteady
      | cons byte queue =>
          have hstage : s.stage ≠ .read := fun hread =>
            Bool.false_ne_true (hfull.symm.trans (hsteady.read hread))
          refine ⟨hsteady.guarded.congr rfl rfl fun htwo => ?_, hsteady.service, ?_,
            fun hread => absurd hread hstage⟩
          · exact (Finset.mem_insert.mp htwo).resolve_left (by decide)
          · exact iff_of_true (Finset.mem_insert_self 1 _) ⟨rfl, hstage⟩

theorem Steady.raise (hsteady : Steady s) {slave : Bool} {line : Fin 8}
    (hwired : Wired (.raise slave line)) : Steady { s with board := s.board.raise slave line } := by
  obtain ⟨hservice, hfull, -⟩ := raise_frame s.board slave line
  refine ⟨hsteady.guarded.raise hwired, hservice.trans hsteady.service, ?_, ?_⟩
  · refine (asks_raise s.board hwired).trans ?_
    rw [hfull]
    exact hsteady.asks
  · rw [hfull]
    exact hsteady.read

theorem Steady.taken (hsteady : Steady s) (hstage : s.stage = .idle) (hfull : s.board.full = true) :
    Steady { s with
      board := { s.board with master := s.board.master.take 1 }
      stage := .read } := by
  have hservice := hsteady.service
  rw [if_pos hstage] at hservice
  refine ⟨hsteady.guarded.congr rfl rfl Finset.mem_of_mem_erase, ?_, ?_, fun _ => hfull⟩
  · change insert 1 s.board.master.service = _
    rw [hservice]
    rfl
  · exact iff_of_false (Finset.notMem_erase 1 _) (fun hasks => hasks.2 rfl)

/-- What a statement of the handler does. -/
theorem serve_cases (hstep : s.step buffer font beyond .serve = some s') :
    (s.stage = .idle ∧ s' = s) ∨
    (s.stage = .read ∧
      s' = { s with board := { s.board with full := false }, stage := .handle s.board.data }) ∨
    (∃ scancode kernel, s.stage = .handle scancode ∧
      s.kernel.step buffer font beyond (.interrupt scancode) = some kernel ∧
      s' = { s with kernel := kernel, stage := .finish }) ∨
    (s.stage = .finish ∧
      s' = { s with
        board := { s.board with master := s.board.master.command PIC_EOI }
        stage := .idle }) := by
  rw [System.step] at hstep
  split at hstep
  case h_1 hstage => exact .inl ⟨hstage, (Option.some.inj hstep).symm⟩
  case h_2 hstage => exact .inr (.inl ⟨hstage, (Option.some.inj hstep).symm⟩)
  case h_3 scancode hstage =>
    obtain ⟨kernel, hkernel, rfl⟩ := Option.map_eq_some_iff.mp hstep
    exact .inr (.inr (.inl ⟨scancode, kernel, hstage, hkernel, rfl⟩))
  case h_4 hstage => exact .inr (.inr (.inr ⟨hstage, (Option.some.inj hstep).symm⟩))

theorem loop_cases (hstep : s.step buffer font beyond .advance = some s') :
    (s.stage ≠ .idle ∧ s' = s) ∨
    (∃ kernel, s.stage = .idle ∧ s.kernel.step buffer font beyond .advance = some kernel ∧
      s' = { s with kernel := kernel }) := by
  rw [System.step] at hstep
  split at hstep
  case h_1 hstage =>
    obtain ⟨kernel, hkernel, rfl⟩ := Option.map_eq_some_iff.mp hstep
    exact .inr ⟨kernel, hstage, hkernel, rfl⟩
  case h_2 hstage => exact .inl ⟨hstage, (Option.some.inj hstep).symm⟩

theorem Steady.serve (hsteady : Steady s)
    (hstep : s.step buffer font beyond .serve = some s') : Steady s' := by
  have hservice := hsteady.service
  have hasks := hsteady.asks
  rcases serve_cases hstep with
    ⟨-, rfl⟩ | ⟨hstage, rfl⟩ | ⟨scancode, kernel, hstage, -, rfl⟩ | ⟨hstage, rfl⟩
  · exact hsteady
  · rw [hstage] at hservice hasks
    refine ⟨hsteady.guarded, hservice, ?_, fun hread => nomatch hread⟩
    exact iff_of_false (fun hone => (hasks.mp hone).2 rfl) (fun hfull => nomatch hfull.1)
  · rw [hstage] at hservice hasks
    exact ⟨hsteady.guarded, hservice, hasks.trans (and_congr_right fun _ => by simp),
      fun hread => nomatch hread⟩
  · rw [hstage] at hservice hasks
    rw [command_eoi hservice]
    exact ⟨hsteady.guarded.congr rfl rfl id, rfl, hasks.trans (and_congr_right fun _ => by simp),
      fun hread => nomatch hread⟩

theorem steady_step (hsteady : Steady s) (hwired : Wired event)
    (hstep : s.step buffer font beyond event = some s') : Steady s' := by
  cases event with
  | send scancode =>
      obtain rfl := Option.some.inj hstep
      exact ⟨hsteady.guarded, hsteady.service, hsteady.asks, hsteady.read⟩
  | transfer =>
      obtain rfl := Option.some.inj hstep
      exact hsteady.transfer
  | raise slave line =>
      obtain rfl := Option.some.inj hstep
      exact hsteady.raise hwired
  | accept =>
      rw [hsteady.accept] at hstep
      obtain rfl := Option.some.inj hstep
      split_ifs with hready
      · exact hsteady.taken hready.1 hready.2
      · exact hsteady
  | serve => exact hsteady.serve hstep
  | advance =>
      rcases loop_cases hstep with ⟨-, rfl⟩ | ⟨kernel, -, -, rfl⟩
      · exact hsteady
      · exact hsteady.congr_kernel kernel

/-! ## The main loop's part of a run -/

/-- The events of the main loop in a run of the system. -/
def System.loopRun (buffer : Framebuffer) (font : PsfFont) (beyond : Byte) (s : System)
    (events : List Event) : List MainLoop.Event :=
  labels (System.step buffer font beyond) loopEvents s events

theorem run_loopEvents (hstep : s.step buffer font beyond event = some s') :
    run (Kernel.step buffer font beyond) s.kernel (loopEvents s event) = some s'.kernel := by
  cases event with
  | send scancode =>
      obtain rfl := Option.some.inj hstep
      rfl
  | transfer =>
      obtain rfl := Option.some.inj hstep
      rfl
  | raise slave line =>
      obtain rfl := Option.some.inj hstep
      rfl
  | accept =>
      rw [System.step] at hstep
      split at hstep
      case h_1 vector board _ _ =>
        split_ifs at hstep
        obtain rfl := Option.some.inj hstep
        rfl
      case h_2 =>
        obtain rfl := Option.some.inj hstep
        rfl
  | serve =>
      rcases serve_cases hstep with
        ⟨hstage, rfl⟩ | ⟨hstage, rfl⟩ | ⟨scancode, kernel, hstage, hkernel, rfl⟩ | ⟨hstage, rfl⟩
      · rw [loopEvents, hstage]
        rfl
      · rw [loopEvents, hstage]
        rfl
      · rw [loopEvents, hstage]
        simp only [run_cons, run_nil, hkernel, Option.bind_some]
      · rw [loopEvents, hstage]
        rfl
  | advance =>
      rcases loop_cases hstep with ⟨hstage, rfl⟩ | ⟨kernel, hstage, hkernel, rfl⟩
      · rw [loopEvents, if_neg hstage]
        rfl
      · rw [loopEvents, if_pos hstage]
        simp only [run_cons, run_nil, hkernel, Option.bind_some]

/-- What a step takes from the keyboard is handled or still unserved after it. -/
theorem unserved_step (hsteady : Steady s) (hstep : s.step buffer font beyond event = some s') :
    s.unserved ++ sent event = (loopEvents s event).filterMap scancode? ++ s'.unserved := by
  cases event with
  | send scancode =>
      obtain rfl := Option.some.inj hstep
      exact List.append_assoc _ _ _
  | transfer =>
      obtain rfl := Option.some.inj hstep
      change s.unserved ++ [] = System.unserved { s with board := s.board.transfer }
      rw [List.append_nil, Board.transfer]
      cases hfull : s.board.full with
      | true => rfl
      | false =>
          cases hqueue : s.board.queue with
          | nil => rfl
          | cons byte queue => simp [System.unserved, hfull, hqueue]
  | raise slave line =>
      obtain rfl := Option.some.inj hstep
      obtain ⟨-, hfull, hdata, hqueue⟩ := raise_frame s.board slave line
      rw [System.unserved, System.unserved, hfull, hdata, hqueue]
      exact List.append_nil _
  | accept =>
      rw [hsteady.accept] at hstep
      obtain rfl := Option.some.inj hstep
      refine (List.append_nil _).trans ?_
      split_ifs with hready
      · simp [System.unserved, hready.1, loopEvents]
      · rfl
  | serve =>
      refine (List.append_nil _).trans ?_
      rcases serve_cases hstep with
        ⟨hstage, rfl⟩ | ⟨hstage, rfl⟩ | ⟨scancode, kernel, hstage, -, rfl⟩ | ⟨hstage, rfl⟩
      · simp [loopEvents, hstage]
      · simp [System.unserved, loopEvents, hstage, hsteady.read hstage]
      · simp [System.unserved, loopEvents, hstage, scancode?]
      · simp [System.unserved, loopEvents, hstage]
  | advance =>
      refine (List.append_nil _).trans ?_
      rcases loop_cases hstep with ⟨hstage, rfl⟩ | ⟨kernel, hstage, -, rfl⟩
      · simp [loopEvents, hstage]
      · simp [System.unserved, loopEvents, hstage, scancode?]

variable {kernel : Kernel} {final : System}

theorem unserved_start : (System.start board kernel).unserved =
    (if board.full then [board.data] else []) ++ board.queue := rfl

theorem steady_run (hservice : board.master.service = ∅) (hempty : board.full = false)
    (hwired : ∀ event ∈ events, Wired event)
    (hrun : run (System.step buffer font beyond) (.start board kernel) events = some final) :
    Steady final :=
  run_invariant Steady (steady_start board kernel hservice hempty)
    (fun _ event hevent _ hsteady => steady_step hsteady (hwired event hevent)) hrun

theorem run_balance (hsteady : Steady s) (hwired : ∀ event ∈ events, Wired event)
    (hrun : run (System.step buffer font beyond) s events = some final) :
    s.unserved ++ events.flatMap sent =
      (s.loopRun buffer font beyond events).filterMap scancode? ++ final.unserved := by
  rw [System.loopRun, filterMap_labels scancode? hrun,
    ← labels_event hrun]
  exact labels_balance Steady System.unserved
    (fun _ event hevent _ hsteady => steady_step hsteady (hwired event hevent))
    (fun _ _ _ _ hsteady => unserved_step hsteady) hsteady hrun

/-- In every run the kernel is in a state of its main loop whose interrupts are the first
scancodes that were sent, in their order and each of them once; the others are still on their
way. -/
theorem scancodes_in_order (hservice : board.master.service = ∅) (hempty : board.full = false)
    (hwired : ∀ event ∈ events, Wired event)
    (hrun : run (System.step buffer font beyond) (.start board kernel) events = some final) :
    ∃ loop, run (Kernel.step buffer font beyond) kernel loop = some final.kernel ∧
      board.queue ++ events.flatMap sent = loop.filterMap scancode? ++ final.unserved := by
  refine ⟨_, run_labels System.kernel (fun _ _ _ => run_loopEvents) hrun, ?_⟩
  have hbalance := run_balance (steady_start board kernel hservice hempty) hwired hrun
  rwa [unserved_start, hempty] at hbalance

/-- The pair before the kernel programs it, with all lines open, and an empty keyboard. -/
def idleBoard : Board where
  master := ⟨.mask, false, false, 0x08, 4, 1, 0, ∅, ∅⟩
  slave := ⟨.mask, false, false, 0x70, 2, 1, 0, ∅, ∅⟩
  queue := []
  data := 0
  full := false

/-- `a` is handled while the timer ticks, and `b` waits in the keyboard controller. -/
theorem scancodes_in_order_timer :
    ∃ final, run (System.step smallBuffer smallFont 0) (.start idleBoard smallStart)
        [.send 0x1E, .send 0x30, .transfer, .advance, .accept, .serve, .raise false 0, .transfer,
          .accept, .serve, .serve] = some final ∧
      ∃ loop, run (Kernel.step smallBuffer smallFont 0) smallStart loop = some final.kernel ∧
        [] ++ [0x1E, 0x30] = loop.filterMap scancode? ++ final.unserved := by
  have hsome : (run (System.step smallBuffer smallFont 0) (.start idleBoard smallStart)
      [.send 0x1E, .send 0x30, .transfer, .advance, .accept, .serve, .raise false 0, .transfer,
        .accept, .serve, .serve]).isSome = true := by
    decide +kernel
  obtain ⟨final, hrun⟩ := Option.isSome_iff_exists.mp hsome
  exact ⟨final, hrun, scancodes_in_order rfl rfl (by simp [Wired]) hrun⟩

/-! ## Only the keyboard interrupts -/

/-- In every run the processor takes no interrupt whose gate is not that of
`keyboardHandler`: what fails is a step of the main loop itself. -/
theorem fails_only_in_loop (hservice : board.master.service = ∅) (hempty : board.full = false)
    (hwired : ∀ event ∈ events, Wired event)
    (hrun : run (System.step buffer font beyond) (.start board kernel) events = some s)
    (hevent : Wired event) (hfails : s.step buffer font beyond event = none) :
    ∃ step ∈ loopEvents s event, s.kernel.step buffer font beyond step = none := by
  have hsteady := steady_run hservice hempty hwired hrun
  cases event with
  | send scancode => cases hfails
  | transfer => cases hfails
  | raise slave line => cases hfails
  | accept =>
      rw [hsteady.accept] at hfails
      cases hfails
  | serve =>
      rw [System.step] at hfails
      split at hfails
      case h_1 => cases hfails
      case h_2 => cases hfails
      case h_3 scancode hstage =>
        refine ⟨.interrupt scancode, ?_, Option.map_eq_none_iff.mp hfails⟩
        rw [loopEvents, hstage]
        exact List.mem_singleton_self _
      case h_4 => cases hfails
  | advance =>
      rw [System.step] at hfails
      split at hfails
      case h_1 hstage =>
        refine ⟨.advance, ?_, Option.map_eq_none_iff.mp hfails⟩
        rw [loopEvents, if_pos hstage]
        exact List.mem_singleton_self _
      case h_2 => cases hfails

/-- A terminal of no columns with a `'\n'` in its input queue. -/
def narrowStart : Kernel :=
  .start ⟨{ TextTerminal.Terminal.init smallBuffer fun _ _ => 0 with
      width := 0
      cells := fun buffer _ => if buffer = .inBuffer then TextTerminal.lineFeed else 0 },
    ⟨false, false, false⟩⟩ fun _ => 0

/-- The division by the width faults. -/
theorem fails_only_in_loop_narrow :
    ∃ s, run (System.step smallBuffer smallFont 0) (.start idleBoard narrowStart)
        [.send 0x1E, .transfer] = some s ∧
      s.step smallBuffer smallFont 0 .advance = none ∧
      ∃ step ∈ loopEvents s .advance, s.kernel.step smallBuffer smallFont 0 step = none := by
  have hlists : (run (System.step smallBuffer smallFont 0) (.start idleBoard narrowStart)
      [.send 0x1E, .transfer]).map (fun s =>
        (s.step smallBuffer smallFont 0 .advance).isNone) = some true := by
    decide +kernel
  obtain ⟨s, hrun, hnone⟩ := Option.map_eq_some_iff.mp hlists
  have hfails := Option.isNone_iff_eq_none.mp hnone
  exact ⟨s, hrun, hfails,
    fails_only_in_loop rfl rfl (by simp [Wired]) hrun trivial hfails⟩

/-! ## A byte that nobody read -/

/-- A byte waits in the keyboard controller, and its line has not risen since. -/
structure Blocked (s : System) : Prop where
  guarded : Guarded s.board.master s.board.slave
  stage : s.stage = .idle
  full : s.board.full = true
  missed : 1 ∉ s.board.master.request

theorem blocked_start (kernel : Kernel) (hfull : board.full = true) :
    Blocked (.start board kernel) :=
  ⟨guarded_start board kernel, rfl, hfull, Finset.notMem_empty 1⟩

theorem Blocked.accept (hblocked : Blocked s) : s.step buffer font beyond .accept = some s := by
  rw [System.step, hblocked.guarded.acknowledge, if_neg fun hasks => hblocked.missed hasks.1,
    hblocked.stage]

/-- Nothing that happens reads the byte. -/
theorem blocked_step (hblocked : Blocked s) (hwired : Wired event)
    (hstep : s.step buffer font beyond event = some s') :
    Blocked s' ∧ s.unserved ++ sent event = s'.unserved := by
  have hstage := hblocked.stage
  cases event with
  | send scancode =>
      obtain rfl := Option.some.inj hstep
      exact ⟨⟨hblocked.guarded, hstage, hblocked.full, hblocked.missed⟩, List.append_assoc _ _ _⟩
  | transfer =>
      rw [System.step, Board.transfer, hblocked.full] at hstep
      obtain rfl := Option.some.inj hstep
      exact ⟨hblocked, List.append_nil _⟩
  | raise slave line =>
      obtain rfl := Option.some.inj hstep
      obtain ⟨-, hfull, hdata, hqueue⟩ := raise_frame s.board slave line
      refine ⟨⟨hblocked.guarded.raise hwired, hstage, hfull.trans hblocked.full, ?_⟩, ?_⟩
      · exact fun hasks => hblocked.missed ((asks_raise s.board hwired).mp hasks)
      · rw [System.unserved, System.unserved, hfull, hdata, hqueue]
        exact List.append_nil _
  | accept =>
      rw [hblocked.accept] at hstep
      obtain rfl := Option.some.inj hstep
      exact ⟨hblocked, List.append_nil _⟩
  | serve =>
      rw [System.step, hstage] at hstep
      obtain rfl := Option.some.inj hstep
      exact ⟨hblocked, List.append_nil _⟩
  | advance =>
      rcases loop_cases hstep with ⟨hother, -⟩ | ⟨kernel, -, -, rfl⟩
      · exact absurd hstage hother
      · exact ⟨⟨hblocked.guarded, hstage, hblocked.full, hblocked.missed⟩, List.append_nil _⟩

theorem loopEvents_idle (hstage : s.stage = .idle) (event : Event) :
    (loopEvents s event).filterMap scancode? = [] := by
  cases event with
  | serve =>
      rw [loopEvents, hstage]
      rfl
  | advance =>
      rw [loopEvents, if_pos hstage]
      rfl
  | send scancode => rfl
  | transfer => rfl
  | raise slave line => rfl
  | accept => rfl

/-- If a byte waits in the keyboard controller while `interuptInit` programs the pair, no
scancode is handled in any run: the byte stays, and all that are sent later wait behind it. -/
theorem unread_byte_blocks (hfull : board.full = true) (hwired : ∀ event ∈ events, Wired event)
    (hrun : run (System.step buffer font beyond) (.start board kernel) events = some final) :
    (∃ loop, run (Kernel.step buffer font beyond) kernel loop = some final.kernel ∧
        loop.filterMap scancode? = []) ∧
      final.stage = .idle ∧
      final.unserved = board.data :: board.queue ++ events.flatMap sent := by
  have hinit := blocked_start kernel hfull
  have hinv : ∀ s, ∀ event ∈ events, ∀ s', Blocked s →
      s.step buffer font beyond event = some s' → Blocked s' :=
    fun _ event hevent _ hblocked hstep => (blocked_step hblocked (hwired event hevent) hstep).1
  have hnone : ((System.start board kernel).loopRun buffer font beyond events).filterMap
      scancode? = [] := by
    rw [System.loopRun, filterMap_labels scancode? hrun]
    exact labels_eq_nil Blocked hinv (fun _ event hblocked => loopEvents_idle hblocked.stage event)
      hinit hrun
  refine ⟨⟨_, run_labels System.kernel (fun _ _ _ => run_loopEvents) hrun, hnone⟩,
    (run_invariant Blocked hinit hinv hrun).stage, ?_⟩
  have hstep : ∀ s, ∀ event ∈ events, ∀ s', Blocked s → s.step buffer font beyond event = some s' →
      s.unserved ++ sent event = (loopEvents s event).filterMap scancode? ++ s'.unserved := by
    intro s event hevent s' hblocked hstep
    rw [loopEvents_idle hblocked.stage, List.nil_append]
    exact (blocked_step hblocked (hwired event hevent) hstep).2
  have hbalance := labels_balance Blocked System.unserved hinv hstep hinit hrun
  rw [labels_event hrun, ← filterMap_labels scancode? hrun] at hbalance
  rw [System.loopRun] at hnone
  rw [hnone, List.nil_append] at hbalance
  rw [← hbalance, unserved_start, hfull]
  rfl

/-- A key was pressed before the kernel took over. -/
theorem unread_byte_blocks_early :
    ∃ final, run (System.step smallBuffer smallFont 0)
        (.start { idleBoard with data := 0x1C, full := true } smallStart)
        [.send 0x1E, .transfer, .accept, .serve, .advance] = some final ∧
      (∃ loop, run (Kernel.step smallBuffer smallFont 0) smallStart loop = some final.kernel ∧
          loop.filterMap scancode? = []) ∧
        final.stage = .idle ∧ final.unserved = 0x1C :: [] ++ [0x1E] := by
  have hsome : (run (System.step smallBuffer smallFont 0)
      (.start { idleBoard with data := 0x1C, full := true } smallStart)
      [.send 0x1E, .transfer, .accept, .serve, .advance]).isSome = true := by
    decide +kernel
  obtain ⟨final, hrun⟩ := Option.isSome_iff_exists.mp hsome
  exact ⟨final, hrun, unread_byte_blocks rfl (by simp [Wired]) hrun⟩

/-! ## Every byte is served -/

/-- Statements and transfers until every byte is served. -/
def System.work (s : System) : ℕ :=
  5 * s.board.queue.length + (if s.board.full = true ∧ s.stage ≠ .read then 4 else 0) +
    match s.stage with
    | .idle => 0
    | .read => 3
    | .handle _ => 2
    | .finish => 1

/-- The event that brings the next byte on. -/
def System.helpful (s : System) : Event :=
  if s.stage ≠ .idle then .serve else if s.board.full then .accept else .transfer

/-- What is wired and sends nothing. -/
def Quiet (event : Event) : Prop := Wired event ∧ sent event = []

/-- A quiet event leaves the stage and the keyboard as they are or is the next byte's own. -/
theorem quiet_cases (hsteady : Steady s) (hquiet : Quiet event)
    (hstep : s.step buffer font beyond event = some s') :
    (s'.stage = s.stage ∧ s'.board.full = s.board.full ∧ s'.board.queue = s.board.queue) ∨
      s'.work < s.work := by
  cases event with
  | send scancode => exact absurd hquiet.2 (List.cons_ne_nil _ _)
  | transfer =>
      obtain rfl := Option.some.inj hstep
      cases hfull : s.board.full with
      | true =>
          rw [Board.transfer, hfull]
          exact .inl ⟨rfl, hfull, rfl⟩
      | false =>
          have hstage : s.stage ≠ .read := fun hread =>
            Bool.false_ne_true (hfull.symm.trans (hsteady.read hread))
          cases hqueue : s.board.queue with
          | nil =>
              rw [Board.transfer, hfull, hqueue]
              exact .inl ⟨rfl, hfull, hqueue⟩
          | cons byte queue =>
              right
              simp only [System.work, Board.transfer, hfull, hqueue, List.length_cons]
              simp [hstage]
              omega
  | raise slave line =>
      obtain rfl := Option.some.inj hstep
      obtain ⟨-, hfull, -, hqueue⟩ := raise_frame s.board slave line
      exact .inl ⟨rfl, hfull, hqueue⟩
  | accept =>
      rw [hsteady.accept] at hstep
      obtain rfl := Option.some.inj hstep
      split_ifs with hready
      · right
        simp [System.work, hready.1, hready.2]
      · exact .inl ⟨rfl, rfl, rfl⟩
  | serve =>
      rcases serve_cases hstep with
        ⟨hstage, rfl⟩ | ⟨hstage, rfl⟩ | ⟨scancode, kernel, hstage, -, rfl⟩ | ⟨hstage, rfl⟩
      · exact .inl ⟨rfl, rfl, rfl⟩
      · right
        simp [System.work, hstage]
      · right
        simp [System.work, hstage]
      · right
        simp [System.work, hstage]
  | advance =>
      rcases loop_cases hstep with ⟨-, rfl⟩ | ⟨kernel, -, -, rfl⟩
      · exact .inl ⟨rfl, rfl, rfl⟩
      · exact .inl ⟨rfl, rfl, rfl⟩

theorem helpful_lowers (hsteady : Steady s) (hpos : 0 < s.work)
    (hstep : s.step buffer font beyond s.helpful = some s') : s'.work < s.work := by
  rw [System.helpful] at hstep
  split_ifs at hstep with hstage hfull
  · have hquiet : Quiet .serve := ⟨trivial, rfl⟩
    refine (quiet_cases hsteady hquiet hstep).resolve_left (fun hsame => ?_)
    rcases serve_cases hstep with
      ⟨hidle, -⟩ | ⟨hstage, rfl⟩ | ⟨scancode, kernel, hstage, -, rfl⟩ | ⟨hstage, rfl⟩
    · exact hstage hidle
    · exact absurd (hsame.1.trans hstage) (by simp)
    · exact absurd (hsame.1.trans hstage) (by simp)
    · exact absurd (hsame.1.trans hstage) (by simp)
  · rw [not_not] at hstage
    rw [hsteady.accept, if_pos ⟨hstage, hfull⟩] at hstep
    obtain rfl := Option.some.inj hstep
    simp [System.work, hstage, hfull]
  · rw [not_not] at hstage
    obtain rfl := Option.some.inj hstep
    cases hqueue : s.board.queue with
    | nil => simp [System.work, hstage, hfull, hqueue] at hpos
    | cons byte queue =>
        simp only [System.work, Board.transfer, hqueue, hstage, List.length_cons]
        simp [hfull]
        omega

theorem helps (buffer : Framebuffer) (font : PsfFont) (beyond : Byte) :
    Helps (System.step buffer font beyond) Quiet Steady System.work System.helpful where
  inv hsteady hquiet hstep := steady_step hsteady hquiet.1 hstep
  le hsteady hquiet hstep := by
    rcases quiet_cases hsteady hquiet hstep with ⟨hstage, hfull, hqueue⟩ | hless
    · rw [System.work, System.work, hstage, hfull, hqueue]
    · exact hless.le
  lowers hsteady hpos hstep := helpful_lowers hsteady hpos hstep
  waits hsteady hquiet hstep hsame := by
    rcases quiet_cases hsteady hquiet hstep with ⟨hstage, hfull, -⟩ | hless
    · rw [System.helpful, System.helpful, hstage, hfull]
    · exact absurd hsame hless.ne

theorem work_le (hsteady : Steady s) : s.work ≤ 5 * s.unserved.length + 1 := by
  have hread := hsteady.read
  rw [System.work, System.unserved]
  cases hfull : s.board.full <;> cases hstage : s.stage <;> simp_all <;> omega

theorem unserved_of_work (hsteady : Steady s) (hwork : s.work = 0) : s.unserved = [] := by
  have hread := hsteady.read
  rw [System.work] at hwork
  rw [System.unserved]
  cases hfull : s.board.full <;> cases hstage : s.stage <;> simp_all

variable {rounds : List (List Event)}

/-- Five rounds of the keyboard controller, the processor and the handler for each byte on
its way, and one more, are enough: in whatever order they come and whatever else happens but
new keys, the main loop has then handled every scancode that was sent. -/
theorem served_in_rounds (hservice : board.master.service = ∅) (hempty : board.full = false)
    (hwired : ∀ event ∈ events, Wired event)
    (hrun : run (System.step buffer font beyond) (.start board kernel) events = some s)
    (hquiet : ∀ round ∈ rounds, ∀ event ∈ round, Quiet event)
    (hround : ∀ round ∈ rounds, .transfer ∈ round ∧ .accept ∈ round ∧ .serve ∈ round)
    (hlength : 5 * s.unserved.length < rounds.length)
    (hlater : run (System.step buffer font beyond) s rounds.flatten = some final) :
    ∃ loop, run (Kernel.step buffer font beyond) kernel loop = some final.kernel ∧
      loop.filterMap scancode? = board.queue ++ events.flatMap sent := by
  have hinit : Steady (.start board kernel) := steady_start board kernel hservice hempty
  have hsteady := steady_run hservice hempty hwired hrun
  have hall : ∀ event ∈ rounds.flatten, Quiet event := by
    intro event hevent
    obtain ⟨round, hmem, hevent⟩ := List.mem_flatten.mp hevent
    exact hquiet round hmem event hevent
  have hhelps := helps buffer font beyond
  have hwork : final.work = 0 := by
    refine hhelps.all_rounds hsteady hquiet (fun round hmem state => ?_) ?_ hlater
    · obtain ⟨htransfer, haccept, hserve⟩ := hround round hmem
      rw [System.helpful]
      split_ifs <;> assumption
    · have hle := work_le hsteady
      omega
  have hdone := unserved_of_work (hhelps.run_inv hsteady hall hlater) hwork
  have hboth : run (System.step buffer font beyond) (.start board kernel)
      (events ++ rounds.flatten) = some final := by
    rw [run_append, hrun]
    exact hlater
  have hbalance := run_balance hinit (fun event hevent =>
    (List.mem_append.mp hevent).elim (hwired event) (fun hlater => (hall event hlater).1)) hboth
  have hsilent : rounds.flatten.flatMap sent = [] :=
    List.flatMap_eq_nil_iff.mpr fun event hevent => (hall event hevent).2
  rw [unserved_start, hempty, List.flatMap_append, hsilent, List.append_nil, hdone,
    List.append_nil] at hbalance
  exact ⟨_, run_labels System.kernel (fun _ _ _ => run_loopEvents) hboth, hbalance.symm⟩

/-- Six rounds, the timer ticking in each, serve a key. -/
theorem served_in_rounds_one :
    ∃ s final, run (System.step smallBuffer smallFont 0) (.start idleBoard smallStart)
        [.send 0x1E] = some s ∧
      run (System.step smallBuffer smallFont 0) s
        (List.replicate 6 [.serve, .raise false 0, .accept, .transfer]).flatten = some final ∧
      ∃ loop, run (Kernel.step smallBuffer smallFont 0) smallStart loop = some final.kernel ∧
        loop.filterMap scancode? = [] ++ [0x1E] := by
  have hlists : ((run (System.step smallBuffer smallFont 0) (.start idleBoard smallStart)
      [.send 0x1E]).bind (fun s => (run (System.step smallBuffer smallFont 0) s
        (List.replicate 6 [.serve, .raise false 0, .accept, .transfer]).flatten).map
          fun _ => s.unserved.length)) = some 1 := by
    decide +kernel
  obtain ⟨s, hrun, hrest⟩ := Option.bind_eq_some_iff.mp hlists
  obtain ⟨final, hlater, hlength⟩ := Option.map_eq_some_iff.mp hrest
  refine ⟨s, final, hrun, hlater, served_in_rounds rfl rfl (by simp [Wired]) hrun ?_ ?_ ?_ hlater⟩
  · simp [Quiet, Wired, sent]
  · simp
  · rw [hlength, List.length_replicate]
    decide

end RedX.KeyboardInterrupt
