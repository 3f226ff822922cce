import RedX.Core.PartialRun
import RedX.Terminal.Terminal

/-!
# The keyboard and the machine

`hid/keyboard.cpp` turns a scancode into a character of `terminal.in`; the main
loop of the kernel calls `Terminal::handler`.  `Machine.step` takes one of the
two, each without interruption.
-/

namespace RedX.KeyboardInput

open RedX.MachineWord
open RedX.AccessLog
open RedX.TextTerminal

/-- The table `ascii`, one character for each scancode below 58. -/
def ascii : List Byte :=
  [0, 0] ++ literal "1234567890-=" ++ [0, 0] ++ literal "qwertyuiop[]" ++
    [0, 0] ++ literal "asdfghjkl;'`" ++ [0] ++ literal "\\zxcvbnm,./" ++
    [0] ++ literal "*" ++ [0] ++ literal " "

/-- `lookup`.  Its bound lets scancode 58 through, one past the end of the table, where
the byte is `beyond`. -/
def lookup (beyond scancode : Byte) (uppercase : Bool) : Byte :=
  let chr := ascii.getD scancode.toNat beyond
  if scancode > 58 then 0
  else if uppercase then
    -- the cases '0', '2', '6', '8', backquote, ';' and the apostrophe
    if chr = 0x30 then chr - 7
    else if chr = 0x32 then chr + 14
    else if chr = 0x36 then chr + 40
    else if chr = 0x38 then chr - 14
    else if chr = 0x60 then chr + 30
    else if chr = 0x3B then chr - 1
    else if chr = 0x27 then chr - 17
    else if scancode < 7 then chr - 16
    else if scancode < 11 then chr - 17
    else chr - 32
  else chr

def LeftShift : Byte := 0x2A
def RightShift : Byte := 0x36
def Enter : Byte := 0x1C
def BackSpace : Byte := 0x0E
def Spacebar : Byte := 0x39

structure Keyboard where
  leftShiftDown : Bool
  rightShiftDown : Bool
  mod : Bool

/-- The end of `handleKeyboard`: the character of a scancode, unless it is zero. -/
def Keyboard.typed (beyond : Byte) (keyboard : Keyboard) (scancode : Byte) :
    Keyboard × Option Byte :=
  let chr := lookup beyond scancode (keyboard.leftShiftDown || keyboard.rightShiftDown)
  (keyboard, if chr = 0 then none else some chr)

/-- The branches of `handleKeyboard` up to the character that it enqueues.  The scancode
after `0xe0` is dropped, and a released shift goes on to the table. -/
def Keyboard.decode (beyond : Byte) (keyboard : Keyboard) (scancode : Byte) :
    Keyboard × Option Byte :=
  if keyboard.mod then ({ keyboard with mod := false }, none)
  else if scancode = 0xE0 then ({ keyboard with mod := true }, none)
  else if scancode = LeftShift then ({ keyboard with leftShiftDown := true }, none)
  else if scancode = LeftShift + 0x80 then
    ({ keyboard with leftShiftDown := false } : Keyboard).typed beyond scancode
  else if scancode = RightShift then ({ keyboard with rightShiftDown := true }, none)
  else if scancode = RightShift + 0x80 then
    ({ keyboard with rightShiftDown := false } : Keyboard).typed beyond scancode
  else if scancode = Enter then (keyboard, some lineFeed)
  else if scancode = BackSpace then (keyboard, none)
  else if scancode = Spacebar then (keyboard, some space)
  else keyboard.typed beyond scancode

structure Machine where
  terminal : Terminal
  keyboard : Keyboard

/-- The search for the first free cell of `terminal.in` and the write to it. -/
def enqueue (t : Terminal) (chr : Byte) : Logged Access Terminal := do
  let i ← t.findFree .inBuffer
  t.write .inBuffer i chr

/-- `handleKeyboard` -/
def Machine.handleKeyboard (beyond : Byte) (m : Machine) (scancode : Byte) :
    Logged Access Machine :=
  let decoded := m.keyboard.decode beyond scancode
  match decoded.2 with
  | none => pure { m with keyboard := decoded.1 }
  | some chr => do
      let terminal ← enqueue m.terminal chr
      return ⟨terminal, decoded.1⟩

inductive Event where
  | key (scancode : Byte)
  | handler

/-- One interrupt of the keyboard or one call of `handler` from the main loop. -/
def Machine.step (beyond : Byte) (m : Machine) : Event → Option Machine
  | .key scancode => (m.handleKeyboard beyond scancode).result
  | .handler => m.terminal.handler.result.map fun terminal => { m with terminal := terminal }

/-- The character that an event enqueues. -/
def Machine.enqueues (beyond : Byte) (m : Machine) : Event → Option Byte
  | .key scancode => (m.keyboard.decode beyond scancode).2
  | .handler => none

variable {beyond : Byte} {m m' : Machine}

theorem typed_ne_zero {keyboard : Keyboard} {scancode chr : Byte}
    (htyped : (keyboard.typed beyond scancode).2 = some chr) : chr ≠ 0 := by
  simp only [Keyboard.typed] at htyped
  split_ifs at htyped with hzero
  exact Option.some.inj htyped ▸ hzero

/-- The keyboard enqueues no terminating zero. -/
theorem decode_ne_zero {keyboard : Keyboard} {scancode chr : Byte}
    (hdecode : (keyboard.decode beyond scancode).2 = some chr) : chr ≠ 0 := by
  unfold Keyboard.decode at hdecode
  split_ifs at hdecode
  all_goals first
    | exact typed_ne_zero hdecode
    | exact Option.some.inj hdecode ▸ (by decide)

/-- A key leaves the terminal as it is or writes its character to the cell that the
search finds. -/
theorem step_key {scancode : Byte} (hstep : m.step beyond (.key scancode) = some m') :
    match m.enqueues beyond (.key scancode) with
    | none => m'.terminal = m.terminal
    | some chr => ∃ i, (m.terminal.findFree .inBuffer).result = some i ∧
        m'.terminal = m.terminal.put .inBuffer i chr := by
  simp only [Machine.step, Machine.handleKeyboard] at hstep
  simp only [Machine.enqueues]
  cases hdecode : (m.keyboard.decode beyond scancode).2 with
  | none =>
      rw [hdecode] at hstep
      exact (Option.some.inj hstep) ▸ rfl
  | some chr =>
      rw [hdecode] at hstep
      simp only [enqueue, Terminal.write, access, result_bind, Option.bind_eq_some_iff] at hstep
      obtain ⟨terminal, ⟨i, hfree, hwrite⟩, hmachine⟩ := hstep
      refine ⟨i, hfree, ?_⟩
      rw [← Option.some.inj hmachine, ← Option.some.inj hwrite]

theorem step_handler (hstep : m.step beyond .handler = some m') :
    m.terminal.handler.result = some m'.terminal := by
  obtain ⟨terminal, hhandler, rfl⟩ := Option.map_eq_some_iff.mp hstep
  exact hhandler

/-- A machine after `init` with two rows of four characters and blank memory. -/
def eightCells : Machine where
  terminal := .init ⟨0, 0, 40, 48, 0⟩ fun _ _ => 0
  keyboard := ⟨false, false, false⟩

end RedX.KeyboardInput
