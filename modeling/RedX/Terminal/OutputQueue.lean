import RedX.Core.PartialRun
import RedX.Terminal.Keyboard

/-!
# The output queue

`print` appends a string to `terminal.out`, and the handler walks the buffer with
`io`.  The loop of `print` that copies the string goes on while its characters are
zero, so it never stores a character: `out` stays empty, and the handler consumes
nothing.  What is consumed is what was printed exactly as long as nothing is printed.
-/

namespace RedX.OutputQueue

open RedX.MachineWord
open RedX.PartialRun
open RedX.AccessLog
open RedX.TextTerminal
open RedX.KeyboardInput

/-- A string of C: its characters without the terminating zero. -/
structure Text where
  characters : List Byte
  ends : 0 ∉ characters

/-- The bytes of the string in memory, which has the bytes `beyond` behind it. -/
def Text.bytes (text : Text) (beyond : ℕ → Byte) (i : Word32) : Byte :=
  (text.characters ++ [0]).getD i.toNat (beyond i.toNat)

inductive Event where
  | print (string : Text) (beyond : ℕ → Byte)
  | handler

/-- A terminal with the characters that were printed and those that came out of `out`. -/
structure History where
  terminal : Terminal
  printed : List Byte
  consumed : List Byte

def History.start (terminal : Terminal) : History := ⟨terminal, [], []⟩

/-- What `handler` itself prints, for a command line that ends. -/
def answer (t : Terminal) : List Byte :=
  if t.nextInput = lineFeed then literal "Shell: error, no such file or command\n" else []

/-- The character that `handler` consumes from `out`, which it reads after the keyboard's
character is handled. -/
def consumes (t : Terminal) : List Byte :=
  match ({ t with work := false } : Terminal).handleInput.result with
  | none => []
  | some t => if t.nextOutput = 0 then [] else [t.nextOutput]

/-- One call of `print` or of `handler`, without interruption. -/
def History.step (h : History) : Event → Option History
  | .print string beyond => (h.terminal.print (string.bytes beyond)).result.map fun terminal =>
      { h with terminal := terminal, printed := h.printed ++ string.characters }
  | .handler => h.terminal.handler.result.map fun terminal =>
      { terminal := terminal
        printed := h.printed ++ answer h.terminal
        consumed := h.consumed ++ consumes h.terminal }

/-- `init` clears one cell fewer than the buffer has. -/
def OutputEmpty (t : Terminal) : Prop :=
  ∀ position : ℕ, position + 1 < t.bufferSize.toNat → t.cells .outBuffer position = 0

/-- The characters consumed are the first of those printed, and all of them when none is
pending in `out`. -/
def InOrder (h : History) : Prop :=
  h.consumed <+: h.printed ∧ (OutputEmpty h.terminal → h.consumed = h.printed)

/-- The characters that a step prints. -/
def prints (h : History) : Event → List Byte
  | .print string _ => string.characters
  | .handler => answer h.terminal

/-- What a step prints fits in one cell fewer than the buffer has. -/
def Fits (h : History) (event : Event) : Prop :=
  h.printed.length - h.consumed.length + (prints h event).length + 1 ≤ h.terminal.bufferSize.toNat

/-- The step prints no character: the string is empty, and the handler has no command line
to answer. -/
def Silent (h : History) : Event → Prop
  | .print string _ => string.characters = []
  | .handler => h.terminal.nextInput ≠ lineFeed

instance (h : History) : ∀ event, Decidable (Silent h event)
  | .print _ _ => inferInstanceAs (Decidable (_ = _))
  | .handler => inferInstanceAs (Decidable (_ ≠ _))

instance (h : History) (event : Event) : Decidable (Fits h event) :=
  inferInstanceAs (Decidable (_ ≤ _))

variable {t t' : Terminal} {h h' : History} {events : List Event}

/-! ## What the two calls do to `out` -/

/-- `print` stores nothing but zeros. -/
theorem print_zeros (t : Terminal) (string : Word32 → Byte) :
    (t.print string).Holds anywhere fun t' => Kept [.outBuffer] t t' ∧
      ∀ position, t.cells .outBuffer position = 0 → t'.cells .outBuffer position = 0 := by
  unfold Terminal.print
  refine holds_bind (holds_anywhere _) fun o _ => ?_
  refine holds_bind (forInt_holds
    (Q := fun stop => Kept [.outBuffer] t stop.2 ∧ ∀ position,
      t.cells .outBuffer position = 0 → stop.2.cells .outBuffer position = 0)
    (fun _ current => Kept [.outBuffer] t current ∧ ∀ position,
      t.cells .outBuffer position = 0 → current.cells .outBuffer position = 0) ?_
    ⟨Kept.refl t, fun _ => id⟩) fun stop hstop => holds_pure hstop
  intro i current hcurrent
  apply holds_pure
  split_ifs with hagain
  · have hzero : string i = 0 := by simpa using hagain
    refine holds_access trivial ⟨hcurrent.1.trans (kept_put _ _ (List.mem_singleton_self _)), ?_⟩
    intro position hposition
    rw [put_cells_self, hzero, Function.update_apply]
    split_ifs
    · rfl
    · exact hcurrent.2 position hposition
  · exact hcurrent

/-- Nothing is in `out` and the handler reads it from the start. -/
structure Idle (t : Terminal) : Prop where
  empty : OutputEmpty t
  first : t.cells .outBuffer 0 = 0
  io : t.io = 0

theorem Idle.nextOutput (hidle : Idle t) : t.nextOutput = 0 := by
  rw [Terminal.nextOutput, hidle.io]
  exact hidle.first

theorem idle_init {frameBuffer : TextRenderer.Framebuffer} {pool : Buffer → ℤ → Byte}
    (hsize : 1 < (Terminal.init frameBuffer pool).bufferSize.toNat) :
    Idle (.init frameBuffer pool) := by
  have hempty : OutputEmpty (.init frameBuffer pool) :=
    fun _ hposition => init_cells_eq_zero frameBuffer pool .outBuffer hposition
  exact ⟨hempty, hempty 0 hsize, rfl⟩

theorem idle_print {string : Word32 → Byte} (hidle : Idle t)
    (hprint : (t.print string).result = some t') : Idle t' := by
  obtain ⟨hkept, hzeros⟩ := (print_zeros t string).2 t' hprint
  refine ⟨fun position hposition => ?_, hzeros 0 hidle.first, hkept.io.trans hidle.io⟩
  rw [hkept.bufferSize] at hposition
  exact hzeros position (hidle.empty position hposition)

theorem idle_handler (hidle : Idle t) (hhandler : t.handler.result = some t') : Idle t' := by
  have hdrained := (handler_drains hhandler).2
  have hqueue := hdrained.queue
  rw [drain, if_pos (show t.cells .outBuffer t.io.toInt = 0 from hidle.nextOutput),
    Prod.mk.injEq] at hqueue
  refine ⟨fun position hposition => ?_, ?_, hqueue.2⟩
  · rw [hdrained.bufferSize] at hposition
    rw [hqueue.1]
    exact hidle.empty position hposition
  · rw [hqueue.1]
    exact hidle.first

theorem Idle.consumes_eq_nil (hidle : Idle t) : consumes t = [] := by
  unfold consumes
  split
  · rfl
  · next next hinput =>
      have hnext : next.nextOutput = 0 :=
        (nextOutput_handleInput hinput).trans hidle.nextOutput
      rw [if_pos hnext]

/-! ## Runs -/

/-- Nothing has been consumed and nothing can be. -/
structure Quiet (h : History) : Prop where
  idle : Idle h.terminal
  consumed : h.consumed = []

theorem Quiet.inOrder_iff (hquiet : Quiet h) : InOrder h ↔ h.printed = [] := by
  rw [InOrder, hquiet.consumed]
  constructor
  · rintro ⟨-, hall⟩
    exact (hall hquiet.idle.empty).symm
  · intro hnone
    exact ⟨List.nil_prefix, fun _ => hnone.symm⟩

theorem step_printed {event : Event} (hstep : h.step event = some h') :
    h'.printed = h.printed ++ prints h event := by
  cases event with
  | print string beyond =>
      obtain ⟨terminal, -, rfl⟩ := Option.map_eq_some_iff.mp hstep
      rfl
  | handler =>
      obtain ⟨terminal, -, rfl⟩ := Option.map_eq_some_iff.mp hstep
      rfl

theorem quiet_step {event : Event} (hquiet : Quiet h) (hstep : h.step event = some h') :
    Quiet h' := by
  cases event with
  | print string beyond =>
      obtain ⟨terminal, hprint, rfl⟩ := Option.map_eq_some_iff.mp hstep
      exact ⟨idle_print hquiet.idle hprint, hquiet.consumed⟩
  | handler =>
      obtain ⟨terminal, hhandler, rfl⟩ := Option.map_eq_some_iff.mp hstep
      refine ⟨idle_handler hquiet.idle hhandler, ?_⟩
      rw [hquiet.consumed, hquiet.idle.consumes_eq_nil]
      rfl

theorem prints_eq_nil_iff (h : History) (event : Event) : prints h event = [] ↔ Silent h event := by
  cases event with
  | print string beyond => exact Iff.rfl
  | handler =>
      change answer h.terminal = [] ↔ h.terminal.nextInput ≠ lineFeed
      unfold answer
      split_ifs with hlast
      · exact iff_of_false (by decide) (not_not_intro hlast)
      · exact iff_of_true rfl hlast

theorem step_inOrder_iff {event : Event} (hquiet : Quiet h) (hinOrder : InOrder h)
    (hstep : h.step event = some h') : InOrder h' ↔ Silent h event := by
  rw [(quiet_step hquiet hstep).inOrder_iff, step_printed hstep,
    hquiet.inOrder_iff.mp hinOrder, List.nil_append, prints_eq_nil_iff]

/-- In every run of `print` and `handler` that returns, from a terminal with nothing in
`out`, the characters consumed are in order and complete throughout if and only if no step
prints a character. -/
theorem output_fifo_iff {final : History} (hidle : Idle t)
    (hrun : run History.step (.start t) events = some final) :
    Throughout History.step InOrder (.start t) events ↔
      Meets History.step Silent (.start t) events := by
  have hquiet : Quiet (.start t) := ⟨hidle, rfl⟩
  rw [throughout_iff_meets Quiet (fun _ => hquiet)
    (fun past event state hpast hstate hnone =>
      absurd hnone (run_ne_none_of_step hrun hpast hstate))
    (fun state event next hquiet hinOrder hstep =>
      ⟨step_inOrder_iff hquiet hinOrder hstep, fun _ => quiet_step hquiet hstep⟩)]
  exact and_iff_right (hquiet.inOrder_iff.mpr rfl)

/-- The empty string between two calls of `handler`. -/
theorem output_fifo_empty_string :
    ∃ final, run History.step (.start eightCells.terminal)
        [.handler, .print ⟨[], by decide⟩ fun _ => 1, .handler] = some final ∧
      Throughout History.step InOrder (.start eightCells.terminal)
        [.handler, .print ⟨[], by decide⟩ fun _ => 1, .handler] := by
  have hreturns : (run History.step (.start eightCells.terminal)
      [.handler, .print ⟨[], by decide⟩ fun _ => 1, .handler]).isSome = true := by
    decide +kernel
  obtain ⟨final, hrun⟩ := Option.isSome_iff_exists.mp hreturns
  exact ⟨final, hrun, (output_fifo_iff (idle_init (by decide +kernel)) hrun).mpr
    (by decide +kernel)⟩

/-- One character is printed, and two calls of `handler` consume nothing. -/
theorem printed_not_consumed :
    Idle eightCells.terminal ∧
      Meets History.step Fits (.start eightCells.terminal)
        [.print ⟨literal "a", by decide⟩ fun _ => 0, .handler, .handler] ∧
      ∃ final, run History.step (.start eightCells.terminal)
          [.print ⟨literal "a", by decide⟩ fun _ => 0, .handler, .handler] = some final ∧
        OutputEmpty final.terminal ∧ final.printed = literal "a" ∧ final.consumed = [] ∧
        ¬ InOrder final := by
  have hidle : Idle eightCells.terminal := idle_init (by decide +kernel)
  have hprinted : (run History.step (.start eightCells.terminal)
      [.print ⟨literal "a", by decide⟩ fun _ => 0, .handler, .handler]).map History.printed =
        some (literal "a") := by
    decide +kernel
  obtain ⟨final, hrun, hfinal⟩ := Option.map_eq_some_iff.mp hprinted
  have hquiet : Quiet final :=
    run_invariant Quiet ⟨hidle, rfl⟩ (fun _ _ _ _ hquiet hstep => quiet_step hquiet hstep) hrun
  refine ⟨hidle, by decide +kernel, final, hrun, hquiet.idle.empty, hfinal, hquiet.consumed,
    fun hinOrder => ?_⟩
  rw [hquiet.inOrder_iff, hfinal] at hinOrder
  exact absurd hinOrder (by decide)

end RedX.OutputQueue
