import Mathlib.Data.List.Sublists
import RedX.Core.PartialRun
import RedX.Screen.TextRenderer

/-!
# The PS/2 mouse

`hid/mouse.cpp`: `handleMouse` collects three bytes and sets `mReady`,
`processMPacket` moves the cursor and clears it.  Bytes that arrive in between are
dropped.  The test for the first byte of a packet is `data & 0b00001000 == 0`, in
which the comparison binds tighter: it masks with 0 and never rejects a byte.
-/

namespace RedX.MouseInput

open RedX.MachineWord
open RedX.PartialRun
open RedX.TextRenderer

/-- The globals of the driver. -/
structure Mouse where
  mCycle : Byte
  mPacket : Fin 4 → Byte
  mReady : Bool
  mouse : Cursor

/-- `handleMouse` -/
def Mouse.handleMouse (m : Mouse) (data : Byte) : Mouse :=
  if m.mCycle = 0 then
    if m.mReady then m
    else if data &&& (if (0b00001000 : Byte) = 0 then 1 else 0) ≠ 0 then m
    else { m with mPacket := Function.update m.mPacket 0 data, mCycle := m.mCycle + 1 }
  else if m.mCycle = 1 then
    if m.mReady then m
    else { m with mPacket := Function.update m.mPacket 1 data, mCycle := m.mCycle + 1 }
  else if m.mCycle = 2 then
    if m.mReady then m
    else { m with mPacket := Function.update m.mPacket 2 data, mReady := true, mCycle := 0 }
  else m

/-- `xMov` and `yMov`: a sign bit, an overflow bit and the movement byte. -/
def movement (neg oFlow : Bool) (byte : Byte) : Word32 :=
  if !neg then byte.setWidth 32 + (if oFlow then 255 else 0)
  else -(256 - byte.setWidth 32) - (if oFlow then 255 else 0)

/-- `processMPacket` -/
def Mouse.processMPacket (m : Mouse) : Mouse :=
  if !m.mReady then m
  else
    let xNeg := m.mPacket 0 &&& 0b00010000 ≠ 0
    let yNeg := m.mPacket 0 &&& 0b00100000 ≠ 0
    let xOFlow := m.mPacket 0 &&& 0b01000000 ≠ 0
    let yOFlow := m.mPacket 0 &&& 0b10000000 ≠ 0
    let xMov := movement xNeg xOFlow (m.mPacket 1)
    let yMov := movement yNeg yOFlow (m.mPacket 2)
    { m with mouse := m.mouse.move xMov (-yMov), mReady := false }

/-- The globals as the kernel starts. -/
def atStart (mouse : Cursor) : Mouse := ⟨0, fun _ => 0, false, mouse⟩

/-! ## Packets -/

structure Packet where
  first : Byte
  second : Byte
  third : Byte
  deriving DecidableEq

/-- The three bytes that `processMPacket` reads. -/
def Mouse.packet (m : Mouse) : Packet := ⟨m.mPacket 0, m.mPacket 1, m.mPacket 2⟩

/-- Bit 3 of a first byte is set. -/
def Header (byte : Byte) : Prop := byte.getLsbD 3 = true

instance (byte : Byte) : Decidable (Header byte) := inferInstanceAs (Decidable (_ = _))

/-! ## A stream of packets -/

/-- Byte `n` of a stream of packets. -/
def byteAt (packets : ℕ → Packet) (n : ℕ) : Byte :=
  match n % 3 with
  | 0 => (packets (n / 3)).first
  | 1 => (packets (n / 3)).second
  | _ => (packets (n / 3)).third

/-- The driver, the number of bytes delivered so far and the packets acted on. -/
structure Session where
  driver : Mouse
  delivered : ℕ
  acted : List Packet

inductive Turn
  | deliver
  | process

def Session.step (packets : ℕ → Packet) (s : Session) : Turn → Option Session
  | .deliver => some { s with
      driver := s.driver.handleMouse (byteAt packets s.delivered)
      delivered := s.delivered + 1 }
  | .process => some { s with
      driver := s.driver.processMPacket
      acted := if s.driver.mReady then s.acted ++ [s.driver.packet] else s.acted }

def opening (mouse : Cursor) : Session := ⟨atStart mouse, 0, []⟩

/-- The packets acted on are packets that were transmitted, in their order and none of them
twice. -/
def Framed (packets : ℕ → Packet) (s : Session) : Prop :=
  s.acted.Sublist ((List.range (s.delivered / 3)).map packets)

/-- A byte that is taken as a first one is the first byte of its packet. -/
def TakenAtStart (s : Session) : Turn → Prop
  | .deliver => s.driver.mCycle = 0 → s.driver.mReady = false → s.delivered % 3 = 0
  | .process => True

instance (s : Session) : ∀ turn, Decidable (TakenAtStart s turn)
  | .deliver => inferInstanceAs (Decidable (_ → _ → _))
  | .process => isTrue trivial

variable {packets : ℕ → Packet} {m : Mouse} {s s' : Session} {data : Byte}

/-! ## The steps of the driver -/

theorem handleMouse_ready (hready : m.mReady = true) : m.handleMouse data = m := by
  rw [Mouse.handleMouse, hready]
  split_ifs <;> first | rfl | contradiction

/-- No byte is rejected as a first byte. -/
theorem handleMouse_first (hready : m.mReady = false) (hcycle : m.mCycle = 0) :
    m.handleMouse data =
      { m with mPacket := Function.update m.mPacket 0 data, mCycle := 1 } := by
  have hmask : ¬ (data &&& (if (0b00001000 : Byte) = 0 then 1 else 0) ≠ 0) := by
    rw [if_neg (by decide)]
    exact not_not_intro BitVec.and_zero
  rw [Mouse.handleMouse, if_pos hcycle, hready, if_neg (by simp), if_neg hmask, hcycle]
  rfl

theorem handleMouse_second (hready : m.mReady = false) (hcycle : m.mCycle = 1) :
    m.handleMouse data =
      { m with mPacket := Function.update m.mPacket 1 data, mCycle := 2 } := by
  rw [Mouse.handleMouse, if_neg (by rw [hcycle]; decide), if_pos hcycle, hready,
    if_neg (by simp), hcycle]
  rfl

theorem handleMouse_third (hready : m.mReady = false) (hcycle : m.mCycle = 2) :
    m.handleMouse data =
      { m with mPacket := Function.update m.mPacket 2 data, mReady := true, mCycle := 0 } := by
  rw [Mouse.handleMouse, if_neg (by rw [hcycle]; decide), if_neg (by rw [hcycle]; decide),
    if_pos hcycle, hready, if_neg (by simp)]

theorem processMPacket_idle (hready : m.mReady = false) : m.processMPacket = m := by
  rw [Mouse.processMPacket, hready]
  rfl

/-- What `processMPacket` keeps of a ready packet. -/
theorem processMPacket_ready (hready : m.mReady = true) :
    m.processMPacket.mReady = false ∧ m.processMPacket.mCycle = m.mCycle ∧
      m.processMPacket.mPacket = m.mPacket := by
  rw [Mouse.processMPacket, hready]
  exact ⟨rfl, rfl, rfl⟩

/-! ## Framing -/

/-- The bytes collected so far are the first ones of the packet being delivered. -/
def Collects (packets : ℕ → Packet) (s : Session) : Prop :=
  s.driver.mCycle = 0 ∨
  (s.driver.mCycle = 1 ∧ s.delivered % 3 = 1 ∧
    s.driver.mPacket 0 = (packets (s.delivered / 3)).first) ∨
  (s.driver.mCycle = 2 ∧ s.delivered % 3 = 2 ∧
    s.driver.mPacket 0 = (packets (s.delivered / 3)).first ∧
    s.driver.mPacket 1 = (packets (s.delivered / 3)).second)

/-- The packet that waits is packet `k`, and the ones acted on came before it. -/
def Waits (packets : ℕ → Packet) (s : Session) (k : ℕ) : Prop :=
  s.driver.mCycle = 0 ∧ k < s.delivered / 3 ∧ s.driver.packet = packets k ∧
    s.acted.Sublist ((List.range k).map packets)

def Tracks (packets : ℕ → Packet) (s : Session) : Prop :=
  (s.driver.mReady = true ∧ ∃ k, Waits packets s k) ∨
    (s.driver.mReady = false ∧ Framed packets s ∧ Collects packets s)

theorem range_sublist {left right : ℕ} (hle : left ≤ right) :
    ((List.range left).map packets).Sublist ((List.range right).map packets) :=
  (List.range_sublist.mpr hle).map packets

theorem Tracks.framed (htracks : Tracks packets s) : Framed packets s := by
  rcases htracks with ⟨-, k, -, hk, -, hacted⟩ | ⟨-, hframed, -⟩
  · exact hacted.trans (range_sublist hk.le)
  · exact hframed

theorem Framed.deliver (hframed : Framed packets s)
    (hacted : s'.acted = s.acted) (hdelivered : s'.delivered = s.delivered + 1) :
    Framed packets s' := by
  rw [Framed, hacted, hdelivered]
  exact hframed.trans (range_sublist (by omega))

theorem byteAt_first {n : ℕ} (hmod : n % 3 = 0) :
    byteAt packets n = (packets (n / 3)).first := by
  rw [byteAt, hmod]
  rfl

theorem byteAt_second {n : ℕ} (hmod : n % 3 = 1) :
    byteAt packets n = (packets (n / 3)).second := by
  rw [byteAt, hmod]
  rfl

theorem byteAt_third {n : ℕ} (hmod : n % 3 = 2) :
    byteAt packets n = (packets (n / 3)).third := by
  rw [byteAt, hmod]
  rfl

/-- One byte. -/
theorem tracks_deliver (htracks : Tracks packets s) (htaken : TakenAtStart s .deliver)
    (hstep : Session.step packets s .deliver = some s') : Tracks packets s' := by
  obtain rfl := Option.some.inj hstep
  rcases htracks with ⟨hready, k, hcycle, hk, hpacket, hacted⟩ | ⟨hready, hframed, hcollects⟩
  · rw [handleMouse_ready hready]
    exact .inl ⟨hready, k, hcycle, hk.trans_le (Nat.div_le_div_right (Nat.le_succ _)), hpacket,
      hacted⟩
  · rcases hcollects with hcycle | ⟨hcycle, hmod, hfirst⟩ | ⟨hcycle, hmod, hfirst, hsecond⟩
    · have hmod := htaken hcycle hready
      have hsame : (s.delivered + 1) / 3 = s.delivered / 3 := by omega
      rw [handleMouse_first hready hcycle]
      refine .inr ⟨hready, Framed.deliver hframed rfl rfl, .inr (.inl ⟨rfl, ?_, ?_⟩)⟩
      · change (s.delivered + 1) % 3 = 1
        omega
      · dsimp only
        rw [hsame, Function.update_self, byteAt_first hmod]
    · have hsame : (s.delivered + 1) / 3 = s.delivered / 3 := by omega
      rw [handleMouse_second hready hcycle]
      refine .inr ⟨hready, Framed.deliver hframed rfl rfl, .inr (.inr ⟨rfl, ?_, ?_, ?_⟩)⟩
      · change (s.delivered + 1) % 3 = 2
        omega
      · dsimp only
        rw [hsame, Function.update_of_ne (by decide), hfirst]
      · dsimp only
        rw [hsame, Function.update_self, byteAt_second hmod]
    · have hlater : s.delivered / 3 < (s.delivered + 1) / 3 := by omega
      rw [handleMouse_third hready hcycle]
      refine .inl ⟨rfl, s.delivered / 3, rfl, hlater, ?_, hframed⟩
      rw [Mouse.packet]
      dsimp only
      rw [Function.update_of_ne (by decide), Function.update_of_ne (by decide),
        Function.update_self, hfirst, hsecond, byteAt_third hmod]

/-- One call of `processMPacket`. -/
theorem tracks_process (htracks : Tracks packets s)
    (hstep : Session.step packets s .process = some s') : Tracks packets s' := by
  obtain rfl := Option.some.inj hstep
  rcases htracks with ⟨hready, k, hcycle, hk, hpacket, hacted⟩ | ⟨hready, hframed, hcollects⟩
  · obtain ⟨hidle, hkept, -⟩ := processMPacket_ready hready
    refine .inr ⟨hidle, ?_, .inl (hkept.trans hcycle)⟩
    have hnext : (s.acted ++ [s.driver.packet]).Sublist ((List.range (k + 1)).map packets) := by
      rw [List.range_succ, List.map_append, hpacket]
      exact hacted.append (List.Sublist.refl _)
    rw [Framed, hready, if_pos rfl]
    exact hnext.trans (range_sublist hk)
  · rw [processMPacket_idle hready, hready, if_neg (by simp)]
    exact .inr ⟨hready, hframed, hcollects⟩

theorem tracks_opening (packets : ℕ → Packet) (mouse : Cursor) :
    Tracks packets (opening mouse) :=
  .inr ⟨rfl, List.nil_sublist _, .inl rfl⟩

/-- The packets stay framed while no byte from the middle of a packet is taken as a first
one. -/
theorem framed_of_meets (packets : ℕ → Packet) (mouse : Cursor) {turns : List Turn}
    (hmeets : Meets (Session.step packets) TakenAtStart (opening mouse) turns) :
    Throughout (Session.step packets) (Framed packets) (opening mouse) turns := by
  have htracks : Throughout (Session.step packets) (Tracks packets) (opening mouse) turns := by
    refine throughout_of_meets (Tracks packets) (tracks_opening packets mouse) ?_ hmeets
    intro s turn _ s' hs htaken hstep
    cases turn with
    | deliver => exact tracks_deliver hs htaken hstep
    | process => exact tracks_process hs hstep
  exact htracks.imp fun s hs => Tracks.framed hs

/-! ## The header bit -/

/-- What can happen to the driver, whatever the bytes are. -/
inductive Event
  | byte (data : Byte)
  | process

def Mouse.step (m : Mouse) : Event → Option Mouse
  | .byte data => some (m.handleMouse data)
  | .process => some m.processMPacket

/-- A packet that waits has a header byte. -/
def HeaderSet (m : Mouse) : Prop := m.mReady = true → Header (m.mPacket 0)

/-- A byte that is taken as a first one is a header byte. -/
def TakesHeader (m : Mouse) : Event → Prop
  | .byte data => m.mCycle = 0 → m.mReady = false → Header data
  | .process => True

instance (m : Mouse) : ∀ event, Decidable (TakesHeader m event)
  | .byte _ => inferInstanceAs (Decidable (_ → _ → _))
  | .process => isTrue trivial

/-- Between packets nothing is known about the bytes; inside one the header is. -/
def HasHeader (m : Mouse) : Prop :=
  m.mReady = true ∨ m.mCycle = 1 ∨ m.mCycle = 2 → Header (m.mPacket 0)

theorem handleMouse_other {m : Mouse} (hcycle : m.mCycle ≠ 0) (hone : m.mCycle ≠ 1)
    (htwo : m.mCycle ≠ 2) : m.handleMouse data = m := by
  rw [Mouse.handleMouse, if_neg hcycle, if_neg hone, if_neg htwo]

theorem hasHeader_byte (hheader : HasHeader m) (htakes : TakesHeader m (.byte data)) :
    HasHeader (m.handleMouse data) := by
  by_cases hready : m.mReady = true
  · rwa [handleMouse_ready hready]
  · rw [Bool.not_eq_true] at hready
    by_cases hcycle : m.mCycle = 0
    · rw [handleMouse_first hready hcycle]
      intro _
      change Header (Function.update m.mPacket 0 data 0)
      rw [Function.update_self]
      exact htakes hcycle hready
    · by_cases hone : m.mCycle = 1
      · rw [handleMouse_second hready hone]
        intro _
        change Header (Function.update m.mPacket 1 data 0)
        rw [Function.update_of_ne (by decide)]
        exact hheader (.inr (.inl hone))
      · by_cases htwo : m.mCycle = 2
        · rw [handleMouse_third hready htwo]
          intro _
          change Header (Function.update m.mPacket 2 data 0)
          rw [Function.update_of_ne (by decide)]
          exact hheader (.inr (.inr htwo))
        · rwa [handleMouse_other hcycle hone htwo]

theorem hasHeader_process (hheader : HasHeader m) : HasHeader m.processMPacket := by
  cases hready : m.mReady with
  | false => rwa [processMPacket_idle hready]
  | true =>
      obtain ⟨-, -, hpacket⟩ := processMPacket_ready hready
      intro _
      rw [hpacket]
      exact hheader (.inl hready)

theorem headerSet_of_meets (mouse : Cursor) {events : List Event}
    (hmeets : Meets Mouse.step TakesHeader (atStart mouse) events) :
    Throughout Mouse.step HeaderSet (atStart mouse) events := by
  have hheader : Throughout Mouse.step HasHeader (atStart mouse) events := by
    refine throughout_of_meets HasHeader ?_ ?_ hmeets
    · rintro (hready | hone | htwo)
      · exact absurd hready Bool.false_ne_true
      · exact absurd hone (show ¬ (0 : Byte) = 1 by decide)
      · exact absurd htwo (show ¬ (0 : Byte) = 2 by decide)
    · intro m event _ m' hm htakes hstep
      cases event with
      | byte data =>
          obtain rfl := Option.some.inj hstep
          exact hasHeader_byte hm htakes
      | process =>
          obtain rfl := Option.some.inj hstep
          exact hasHeader_process hm
  exact hheader.imp fun m hm hready => hm (.inl hready)

/-- Framing, for every stream of packets and every order of turns, and the header bit, for
all bytes: while no byte from the middle of a packet, and no byte without bit 3, is taken
as a first one. -/
theorem mouse_framing {packets : ℕ → Packet} {mouse : Cursor} {turns : List Turn}
    {events : List Event}
    (hturns : Meets (Session.step packets) TakenAtStart (opening mouse) turns)
    (hevents : Meets Mouse.step TakesHeader (atStart mouse) events) :
    Throughout (Session.step packets) (Framed packets) (opening mouse) turns ∧
      Throughout Mouse.step HeaderSet (atStart mouse) events :=
  ⟨framed_of_meets packets mouse hturns, headerSet_of_meets mouse hevents⟩

/-- Two packets, each processed before the next one begins. -/
theorem mouse_framing_two :
    let packets : ℕ → Packet := fun _ => ⟨0x08, 1, 2⟩
    Throughout (Session.step packets) (Framed packets) (opening ⟨0, 0, 79, 24⟩)
        [.deliver, .deliver, .deliver, .process, .deliver, .deliver, .deliver, .process] ∧
      Throughout Mouse.step HeaderSet (atStart ⟨0, 0, 79, 24⟩)
        [.byte 0x08, .byte 1, .byte 2, .process] :=
  mouse_framing (by decide) (by decide)

/-- The first byte of the second packet arrives before the first packet is processed: what
is acted on next are the other two bytes and the first one of the third packet. -/
theorem packet_misframed :
    let packets : ℕ → Packet := fun _ => ⟨0x08, 1, 2⟩
    (∀ k, Header (packets k).first) ∧
      ∃ s, run (Session.step packets) (opening ⟨0, 0, 79, 24⟩)
          [.deliver, .deliver, .deliver, .deliver, .process, .deliver, .deliver, .deliver] =
            some s ∧
        ¬ HeaderSet s.driver ∧
        ∃ s', Session.step packets s .process = some s' ∧ ⟨1, 2, 0x08⟩ ∈ s'.acted ∧
          ¬ Framed packets s' := by
  intro packets
  have hwait : (run (Session.step packets) (opening ⟨0, 0, 79, 24⟩)
      [.deliver, .deliver, .deliver, .deliver, .process, .deliver, .deliver, .deliver]).map
        (fun s => (s.driver.mReady, s.driver.packet)) = some (true, ⟨1, 2, 0x08⟩) := by
    decide
  obtain ⟨s, hrun, hs⟩ := Option.map_eq_some_iff.mp hwait
  obtain ⟨hready, hpacket⟩ := Prod.mk.inj hs
  have hfirst : s.driver.mPacket 0 = 1 := congrArg Packet.first hpacket
  have hacted : ⟨1, 2, 0x08⟩ ∈ if s.driver.mReady then s.acted ++ [s.driver.packet]
      else s.acted := by
    rw [hready, if_pos rfl, hpacket]
    exact List.mem_append_right _ List.mem_cons_self
  refine ⟨fun k => by decide, s, hrun, fun hset => ?_, _, rfl, hacted, fun hframed => ?_⟩
  · have hheader := hset hready
    rw [hfirst] at hheader
    revert hheader
    decide
  · obtain ⟨k, -, hk⟩ := List.mem_map.mp (hframed.subset hacted)
    exact absurd hk (show ¬ (⟨0x08, 1, 2⟩ : Packet) = ⟨1, 2, 0x08⟩ by decide)

end RedX.MouseInput
