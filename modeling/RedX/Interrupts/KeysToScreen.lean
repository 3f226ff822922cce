import RedX.Interrupts.KeyboardInterrupt
import RedX.Terminal.ExtendedKeys

/-!
# From the keyboard to the screen

The characters that the scancodes on the wire type, and what the screen shows of them: the
run of the interrupts, the queue of the terminal and the main loop's renderer together.
-/

namespace RedX.KeysToScreen

open RedX.MachineWord
open RedX.ByteMemory
open RedX.PartialRun
open RedX.Simulation
open RedX.InterruptControllers
open RedX.TextRenderer
open RedX.TextTerminal
open RedX.TerminalRender
open RedX.KeyboardInput (Keyboard)
open RedX.InputQueue
open RedX.PoolPages (step_of_paged)
open RedX.Delivery
open RedX.MainLoop (Kernel Admits Painted Sound smallBuffer smallFont smallStart smallScreen)
open RedX.KeyboardInterrupt

/-- The characters that scancodes type. -/
def characters (beyond : Byte) (keyboard : Keyboard) : List Byte → List Byte
  | [] => []
  | scancode :: scancodes =>
      let decoded := keyboard.decode beyond scancode
      decoded.2.toList ++ characters beyond decoded.1 scancodes

variable {buffer : Framebuffer} {font : PsfFont} {beyond : Byte} {k k' : Kernel}
  {loop : List MainLoop.Event}

/-- The main loop's own statements type nothing. -/
theorem advance_keeps (hstep : k.step buffer font beyond .advance = some k') :
    k'.history.enqueued = k.history.enqueued ∧
      k'.history.machine.keyboard = k.history.machine.keyboard := by
  cases hasleep : k.asleep with
  | true =>
      rw [MainLoop.step_asleep hasleep] at hstep
      obtain rfl := Option.some.inj hstep
      exact ⟨rfl, rfl⟩
  | false =>
      rcases MainLoop.advance_cases hstep hasleep with
        ⟨-, history, hhandler, rfl⟩ | ⟨-, rfl⟩ | ⟨-, rfl⟩
      · obtain ⟨machine, hmachine, rfl⟩ := Option.map_eq_some_iff.mp (step_of_paged hhandler)
        obtain ⟨terminal, -, rfl⟩ := Option.map_eq_some_iff.mp hmachine
        exact ⟨List.append_nil _, rfl⟩
      · exact ⟨rfl, rfl⟩
      · exact ⟨rfl, rfl⟩

/-- The main loop enqueues the characters of the scancodes that it handles. -/
theorem enqueued_run (hrun : run (Kernel.step buffer font beyond) k loop = some k') :
    k'.history.enqueued = k.history.enqueued ++
      characters beyond k.history.machine.keyboard (loop.filterMap scancode?) := by
  induction loop generalizing k with
  | nil =>
      cases hrun
      exact (List.append_nil _).symm
  | cons event loop ih =>
      rw [run_cons, Option.bind_eq_some_iff] at hrun
      obtain ⟨next, hstep, hrun⟩ := hrun
      rw [ih hrun]
      cases event with
      | interrupt scancode =>
          obtain ⟨history, hkey, rfl⟩ := Option.map_eq_some_iff.mp hstep
          obtain ⟨machine, hmachine, rfl⟩ := Option.map_eq_some_iff.mp (step_of_paged hkey)
          have hkeyboard := ExtendedKeys.step_keyboard hmachine
          change (k.history.enqueued ++
              (k.history.machine.keyboard.decode beyond scancode).2.toList) ++
            characters beyond machine.keyboard _ = _
          rw [hkeyboard, List.append_assoc]
          rfl
      | advance =>
          obtain ⟨henqueued, hkeyboard⟩ := advance_keeps hstep
          rw [henqueued, hkeyboard]
          rfl

variable {memory : Memory} {pool : Buffer → ℤ → Byte} {keyboard : Keyboard} {board : Board}
  {events : List Event} {final : System}

/-- `a` is pressed, and its interrupt comes before the first turn of the loop. -/
def pressA : List Event :=
  [.send 0x1E, .transfer, .accept, .serve, .serve, .serve, .advance, .advance]

end RedX.KeysToScreen
