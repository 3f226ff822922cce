import Mathlib.Data.Finset.Basic
import RedX.Hid.PortIo

/-!
# The interrupt controllers

The port commands of `interrupts/interrupts.cpp` and of `interuptInit`, and the two 8259
controllers that they program: edge triggered, fully nested, the second one wired to line 2
of the first.  A rising line latches a request, the processor is offered the vector of the
first line that is not masked and before every line in service, and the end of an interrupt
clears the first line in service.  The keyboard controller keeps one byte for port `0x60` and
holds line 1 up while it does.
-/

namespace RedX.InterruptControllers

open RedX.MachineWord
open RedX.PortProgram
open RedX.PortIo

def PIC1_COMMAND : Port := 0x20
def PIC1_DATA : Port := 0x21
def PIC2_COMMAND : Port := 0xA0
def PIC2_DATA : Port := 0xA1
def PIC_EOI : Byte := 0x20

def ICW1_INIT : Byte := 0x10
def ICW1_ICW4 : Byte := 0x01
def ICW4_8086 : Byte := 0x01

/-- `remapPIC` -/
def remapPIC : Io Unit := do
  let a1 ← inb PIC1_DATA
  ioWait
  let a2 ← inb PIC2_DATA
  ioWait
  outb PIC1_COMMAND (ICW1_INIT ||| ICW1_ICW4)
  ioWait
  outb PIC2_COMMAND (ICW1_INIT ||| ICW1_ICW4)
  ioWait
  outb PIC1_DATA 0x20
  ioWait
  outb PIC2_DATA 0x28
  ioWait
  outb PIC1_DATA 4
  ioWait
  outb PIC2_DATA 2
  ioWait
  outb PIC1_DATA ICW4_8086
  ioWait
  outb PIC2_DATA ICW4_8086
  ioWait
  outb PIC1_DATA a1
  ioWait
  outb PIC2_DATA a2

/-- `endMaster` -/
def endMaster : Io Unit := outb PIC1_COMMAND PIC_EOI

/-- `endSlave` -/
def endSlave : Io Unit := do
  outb PIC2_COMMAND PIC_EOI
  outb PIC1_COMMAND PIC_EOI

/-- The port commands of `interuptInit`, between `lidt` and `sti`. -/
def picInit : Io Unit := do
  remapPIC
  outb PIC1_DATA 0b11111001
  outb PIC2_DATA 0b11101111

/-! ## The controllers -/

/-- What the next word at the data port is. -/
inductive Awaits
  | vector
  | cascade
  | mode
  | mask
  deriving DecidableEq

structure Pic where
  awaits : Awaits
  single : Bool
  brief : Bool
  vector : Byte
  cascade : Byte
  mode : Byte
  mask : Byte
  request : Finset (Fin 8)
  service : Finset (Fin 8)

/-- The first of some lines, which has the highest priority. -/
def firstLine (lines : Fin 8 → Bool) : Option (Fin 8) := (List.finRange 8).find? lines

/-- A word at the command port.  Words that the kernel never writes are left out. -/
def Pic.command (pic : Pic) (word : Byte) : Pic :=
  if word.getLsbD 4 then
    { pic with
      awaits := .vector
      single := word.getLsbD 1
      brief := !word.getLsbD 0
      mask := 0
      request := ∅ }
  else if word = PIC_EOI then
    match firstLine (· ∈ pic.service) with
    | none => pic
    | some line => { pic with service := pic.service.erase line }
  else pic

/-- A word at the data port. -/
def Pic.data (pic : Pic) (word : Byte) : Pic :=
  match pic.awaits with
  | .vector => { pic with
      vector := word &&& 0xF8
      awaits := if !pic.single then .cascade else if !pic.brief then .mode else .mask }
  | .cascade => { pic with
      cascade := word
      awaits := if !pic.brief then .mode else .mask }
  | .mode => { pic with
      mode := word
      awaits := .mask }
  | .mask => { pic with mask := word }

/-- A line rises. -/
def Pic.raise (pic : Pic) (line : Fin 8) : Pic := { pic with request := insert line pic.request }

/-- The line that is served next, where `asks` says which lines ask. -/
def Pic.next (pic : Pic) (asks : Fin 8 → Bool) : Option (Fin 8) :=
  firstLine fun line =>
    asks line && !pic.mask.getLsbD line && decide (∀ other ∈ pic.service, line < other)

/-- The processor takes the interrupt of a line. -/
def Pic.take (pic : Pic) (line : Fin 8) : Pic :=
  { pic with
    request := pic.request.erase line
    service := insert line pic.service }

def Pic.vectorOf (pic : Pic) (line : Fin 8) : Byte := pic.vector ||| BitVec.ofNat 8 line

/-- The pair of controllers and the keyboard controller: the bytes that the keyboard has sent,
the byte at port `0x60` and whether it waits to be read. -/
structure Board where
  master : Pic
  slave : Pic
  queue : List Byte
  data : Byte
  full : Bool

/-- The ports of the board; no device answers at another one. -/
def ports : Device Board Port Byte where
  input board port :=
    if port = 0x60 then (board.data, { board with full := false })
    else if port = PIC1_DATA then (board.master.mask, board)
    else if port = PIC2_DATA then (board.slave.mask, board)
    else (0xFF, board)
  output board port byte :=
    if port = PIC1_COMMAND then { board with master := board.master.command byte }
    else if port = PIC1_DATA then { board with master := board.master.data byte }
    else if port = PIC2_COMMAND then { board with slave := board.slave.command byte }
    else if port = PIC2_DATA then { board with slave := board.slave.data byte }
    else board

/-- The keyboard controller takes the next byte over, if the last one was read; its line to
the first controller rises. -/
def Board.transfer (board : Board) : Board :=
  if board.full then board
  else match board.queue with
    | [] => board
    | byte :: queue => { board with
        queue := queue
        data := byte
        full := true
        master := board.master.raise 1 }

/-- Another device raises its line. -/
def Board.raise (board : Board) (slave : Bool) (line : Fin 8) : Board :=
  if slave then { board with slave := board.slave.raise line }
  else { board with master := board.master.raise line }

/-- The interrupt that the processor is offered: its vector, and the board after it is taken.
Line 2 of the first controller asks while the second one does. -/
def Board.acknowledge (board : Board) : Option (Byte × Board) :=
  let slaveLine := board.slave.next (· ∈ board.slave.request)
  let asks (line : Fin 8) := decide (line ∈ board.master.request) || line = 2 && slaveLine.isSome
  (board.master.next asks).map fun line =>
    let master := board.master.take line
    if line = 2 then
      match slaveLine with
      -- the request went away: the last vector of the second controller
      | none => (board.slave.vectorOf 7, { board with master := master })
      | some line =>
          (board.slave.vectorOf line,
            { board with master := master, slave := board.slave.take line })
    else (board.master.vectorOf line, { board with master := master })

variable {board : Board}

/-! ## The pair as `interuptInit` leaves it -/

/-- Both controllers as `interuptInit` leaves them, up to what is in service. -/
def Board.programmed (board : Board) : Board :=
  { board with
    master := ⟨.mask, false, false, 0x20, 4, 1, 0b11111001, ∅, board.master.service⟩
    slave := ⟨.mask, false, false, 0x28, 2, 1, 0b11101111, ∅, board.slave.service⟩ }

theorem run_picInit (board : Board) : (picInit.run ports board).2 = board.programmed := rfl

/-- `remapPIC` moves the vectors and keeps the masks. -/
theorem run_remapPIC (board : Board) :
    (remapPIC.run ports board).2 = { board.programmed with
      master := { board.programmed.master with mask := board.master.mask }
      slave := { board.programmed.slave with mask := board.slave.mask } } := rfl

/-- The end of the keyboard's interrupt. -/
theorem command_eoi {pic : Pic} (hservice : pic.service = {1}) :
    pic.command PIC_EOI = { pic with service := ∅ } := by
  have hline : firstLine (fun line => decide (line ∈ ({1} : Finset (Fin 8)))) = some 1 := rfl
  have herase : ({1} : Finset (Fin 8)).erase 1 = ∅ := rfl
  rw [Pic.command, if_neg (by decide), if_pos rfl, hservice, hline]
  simp only [herase]

end RedX.InterruptControllers
