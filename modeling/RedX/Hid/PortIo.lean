import RedX.Core.MachineWord
import RedX.Core.PortProgram

/-!
# Port instructions and the mouse's set-up

`hid/io.cpp`: `outb` and `inb` are one access each, and `ioWait` writes a zero to the unused
port `0x80`.  The port commands of `hid/mouse.cpp` wait for the controller before each byte,
with a bound on the wait, so `ps2MouseInit` ends whatever the controller answers; its first
byte alone is written without a wait.
-/

namespace RedX.PortIo

open RedX.MachineWord
open RedX.PortProgram

abbrev Port := BitVec 16

abbrev Io := Program Port Byte

abbrev Talk := List (Exchange Port Byte)

/-- `outb` -/
def outb (port : Port) (byte : Byte) : Io Unit := writePort port byte

/-- `inb` -/
def inb (port : Port) : Io Byte := readPort port

/-- `ioWait` -/
def ioWait : Io Unit := outb 0x80 0

/-- `mWait` -/
def mWait : Io Unit := poll 0x64 (fun status => status &&& 0b10 = 0) 100000

/-- `mWaitIn` -/
def mWaitIn : Io Unit := poll 0x64 (fun status => status &&& 0b1 ≠ 0) 100000

/-- `mWrite` -/
def mWrite (V : Byte) : Io Unit := do
  mWait
  outb 0x64 0xd4
  mWait
  outb 0x60 V

/-- `mRead` -/
def mRead : Io Byte := do
  mWaitIn
  inb 0x60

/-- `ps2MouseInit` -/
def ps2MouseInit : Io Unit := do
  outb 0x64 0xa8
  mWait
  outb 0x64 0x20
  mWaitIn
  let stat ← inb 0x60
  mWait
  outb 0x64 0x60
  mWait
  outb 0x60 (stat ||| 0b10)
  mWrite 0xf6
  let _ ← mRead
  mWrite 0xf4
  let _ ← mRead

/-! ## What the mouse's set-up says -/

/-- A wait until the controller has taken the last byte, or until the reads are used up. -/
def emptied : Talk → Prop := Waits 0x64 (fun status => status &&& 0b10 = 0) 100000

/-- A wait until the controller has an answer, or until the reads are used up. -/
def filled : Talk → Prop := Waits 0x64 (fun status => status &&& 0b1 ≠ 0) 100000

/-- A byte for the mouse. -/
def written (V : Byte) : Talk → Prop :=
  InTurn [emptied, speaks (.output 0x64 0xd4), emptied, speaks (.output 0x60 V)]

def answered (byte : Byte) : Talk → Prop := InTurn [filled, speaks (.input 0x60 byte)]

/-- The parts of the set-up: `stat` is the configuration byte that is read, and `ack` and
`ack'` are the mouse's answers. -/
def setUp (stat ack ack' : Byte) : List (Talk → Prop) :=
  [speaks (.output 0x64 0xa8), emptied, speaks (.output 0x64 0x20), filled,
    speaks (.input 0x60 stat), emptied, speaks (.output 0x64 0x60), emptied, speaks (.output 0x60 (stat ||| 0b10)),
    written 0xf6, answered ack, written 0xf4, answered ack']

theorem talks_outb (port : Port) (byte : Byte) (talk : Talk) :
    (outb port byte).Talks talk () ↔ speaks (.output port byte) talk := talks_writePort

theorem talks_inb (port : Port) (talk : Talk) (byte : Byte) :
    (inb port).Talks talk byte ↔ speaks (.input port byte) talk := talks_readPort

theorem talks_mWait (talk : Talk) : mWait.Talks talk () ↔ emptied talk := talks_poll

theorem talks_mWaitIn (talk : Talk) : mWaitIn.Talks talk () ↔ filled talk := talks_poll

/-- A program of parts that no read changes. -/
theorem talks_last {α : Type} {last : Io α} {result : α} {part : Talk → Prop}
    (hlast : ∀ talk, last.Talks talk result ↔ part talk) (talk : Talk) :
    last.Talks talk result ↔ ∃ _index : Unit, InTurn [part] talk := by
  rw [hlast]
  constructor
  · exact fun hpart => ⟨(), talk, [], (List.append_nil talk).symm, hpart, rfl⟩
  · rintro ⟨-, early, late, rfl, hpart, rfl⟩
    rwa [List.append_nil]

theorem talks_mWrite (V : Byte) (talk : Talk) : (mWrite V).Talks talk () ↔ written V talk := by
  have hparts : (mWrite V).Talks talk () ↔ ∃ _index : Unit,
      InTurn [emptied, speaks (.output 0x64 0xd4), emptied, speaks (.output 0x60 V)] talk :=
    talks_turn talks_mWait fun _ => talks_turn (talks_outb _ _) fun _ =>
      talks_turn talks_mWait (talks_last (talks_outb _ _))
  rw [hparts, exists_const, written]

theorem talks_mRead (talk : Talk) (byte : Byte) : mRead.Talks talk byte ↔ answered byte talk := by
  have hparts : mRead.Talks talk byte ↔ ∃ _index : Unit,
      InTurn [filled, speaks (.input 0x60 byte)] talk :=
    talks_turn talks_mWaitIn (talks_last fun talk => talks_inb 0x60 talk byte)
  rw [hparts, exists_const, answered]

/-- The conversations of the set-up, statement by statement. -/
theorem talks_ps2MouseInit (talk : Talk) : ps2MouseInit.Talks talk () ↔
    ∃ stat ack ack', InTurn (setUp stat ack ack') talk := by
  have hparts : ps2MouseInit.Talks talk () ↔ ∃ index : Byte × Byte × Byte × Unit,
      InTurn (setUp index.1 index.2.1 index.2.2.1) talk := by
    refine talks_turn (talks_outb _ _) fun _ => ?_
    refine talks_turn talks_mWait fun _ => ?_
    refine talks_turn (talks_outb _ _) fun _ => ?_
    refine talks_turn talks_mWaitIn fun _ => ?_
    refine talks_turn_value (fun stat => speaks (.input 0x60 stat))
      (fun stat (index : Byte × Byte × Unit) => (setUp stat index.1 index.2.1).drop 5)
      (talks_inb _) fun stat _ => ?_
    refine talks_turn talks_mWait fun _ => ?_
    refine talks_turn (talks_outb _ _) fun _ => ?_
    refine talks_turn talks_mWait fun _ => ?_
    refine talks_turn (talks_outb _ _) fun _ => ?_
    refine talks_turn (talks_mWrite _) fun _ => ?_
    refine talks_turn_value answered
      (fun ack (index : Byte × Unit) => (setUp stat ack index.1).drop 11) talks_mRead fun ack _ => ?_
    refine talks_turn (talks_mWrite _) fun _ => ?_
    refine talks_turn_value answered (fun ack' (_ : Unit) => (setUp stat ack ack').drop 13)
      talks_mRead fun ack' _ => ?_
    exact talks_pure_turn.trans ⟨fun hend => ⟨(), hend⟩, fun hend => hend.elim fun _ hend => hend⟩
  rw [hparts]
  constructor
  · rintro ⟨⟨stat, ack, ack', ⟨⟩⟩, hturn⟩
    exact ⟨stat, ack, ack', hturn⟩
  · rintro ⟨stat, ack, ack', hturn⟩
    exact ⟨⟨stat, ack, ack', ()⟩, hturn⟩

/-! ## Its length -/

theorem length_written {V : Byte} (talk : Talk) (hwritten : written V talk) :
    talk.length ≤ 200002 := by
  refine InTurn.length_le [100000, 1, 100000, 1] ?_ hwritten
  exact .cons (fun _ => Waits.length_le) (.cons length_speaks
    (.cons (fun _ => Waits.length_le) (.cons length_speaks .nil)))

theorem length_answered {byte : Byte} (talk : Talk) (hanswered : answered byte talk) :
    talk.length ≤ 100001 := by
  refine InTurn.length_le [100000, 1] ?_ hanswered
  exact .cons (fun _ => Waits.length_le) (.cons length_speaks .nil)

/-- Whatever the devices answer, the set-up ends after at most 1000011 accesses: it writes the
same bytes in the same order, the configuration byte as it was read with bit 1 set, and every
byte but the first after a wait that saw the input buffer empty or used up its reads. -/
theorem ps2MouseInit_conversation {σ : Type} (device : Device σ Port Byte) (state : σ) :
    (∃ stat ack ack', InTurn (setUp stat ack ack') (ps2MouseInit.talk device state)) ∧
      (ps2MouseInit.talk device state).length ≤ 1000011 := by
  obtain ⟨stat, ack, ack', hturn⟩ :=
    (talks_ps2MouseInit _).mp (talks_talk ps2MouseInit device state)
  refine ⟨⟨stat, ack, ack', hturn⟩, InTurn.length_le [1, 100000, 1, 100000, 1, 100000, 1,
    100000, 1, 200002, 100001, 200002, 100001] ?_ hturn⟩
  have hwait : ∀ talk, emptied talk → talk.length ≤ 100000 := fun _ => Waits.length_le
  have hanswer : ∀ talk, filled talk → talk.length ≤ 100000 := fun _ => Waits.length_le
  exact .cons length_speaks (.cons hwait (.cons length_speaks (.cons hanswer (.cons length_speaks
    (.cons hwait (.cons length_speaks (.cons hwait (.cons length_speaks (.cons length_written
    (.cons length_answered (.cons length_written (.cons length_answered .nil))))))))))))

end RedX.PortIo
