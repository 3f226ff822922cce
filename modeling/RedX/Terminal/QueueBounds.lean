import RedX.Core.PartialRun
import RedX.Terminal.Keyboard

/-!
# Bounds of the two queues

The keyboard and `print` look for the first free cell of their queue and store there.  The
search tests a cell before it compares the index with the size, and the store does not
compare it again, so a full queue is left by both.  `print` also stores as many zeros as it
finds at the start of its string.
-/

namespace RedX.QueueBounds

open RedX.MachineWord
open RedX.PartialRun
open RedX.AccessLog
open RedX.TextTerminal
open RedX.KeyboardInput

/-- The two producers. -/
inductive Event where
  | key (scancode : Byte)
  | print (string : Word32 → Byte)

def call (beyond : Byte) (m : Machine) : Event → Logged Access Machine
  | .key scancode => m.handleKeyboard beyond scancode
  | .print string => do
      let terminal ← m.terminal.print string
      return { m with terminal := terminal }

def step (beyond : Byte) (m : Machine) (event : Event) : Option Machine :=
  (call beyond m event).result

/-- The queue that an event appends to. -/
def queue : Event → Buffer
  | .key _ => .inBuffer
  | .print _ => .outBuffer

/-- An access to a queue lies in `[0, size)`. -/
def InQueue (size : Word64) (place : Access) : Prop :=
  place.1 = .inBuffer ∨ place.1 = .outBuffer → 0 ≤ place.2 ∧ place.2 < size.toNat

def Full (t : Terminal) (buffer : Buffer) : Prop :=
  ∀ position : ℕ, position < t.bufferSize.toNat → t.cells buffer position ≠ 0

/-- The step makes no access outside, and drops what it would append to a full queue. -/
def Bounded (beyond : Byte) (m : Machine) (event : Event) : Prop :=
  (call beyond m event).All (InQueue m.terminal.bufferSize) ∧
    (Full m.terminal (queue event) → ∀ m', step beyond m event = some m' →
      m'.terminal.cells (queue event) = m.terminal.cells (queue event))

/-- The string starts with `count` zeros, counting those behind its end. -/
def Zeros (string : Word32 → Byte) (count : ℕ) : Prop :=
  ∀ i < count, string (BitVec.ofNat 32 i) = 0

/-- A key with a character finds a free cell.  So does a string, and the zeros that it
starts with fit from there on. -/
def HasSpace (beyond : Byte) (m : Machine) : Event → Prop
  | .key scancode =>
      (m.keyboard.decode beyond scancode).2 ≠ none → m.terminal.HasRoom .inBuffer
  | .print string => m.terminal.HasRoom .outBuffer ∧
      ∀ o, m.terminal.FirstZero .outBuffer o → ∀ count, Zeros string count →
        o.toNat + count ≤ m.terminal.reach

variable {beyond : Byte} {m m' : Machine} {t t' : Terminal} {buffer : Buffer} {size : Word64}
  {string : Word32 → Byte} {o : Word32}

theorem inQueue_of_lt_reach {position : ℕ} (hposition : position < t.reach) :
    InQueue t.bufferSize (buffer, position) :=
  fun _ => ⟨Int.natCast_nonneg _, Int.ofNat_lt.mpr (lt_of_lt_of_le hposition (min_le_left _ _))⟩

theorem not_inQueue_reach (hqueue : buffer = .inBuffer ∨ buffer = .outBuffer) :
    ¬ InQueue t.bufferSize (buffer, (BitVec.ofNat 32 t.reach).toInt) :=
  fun hinside => reach_outside (hinside hqueue)

/-- The search stays inside exactly where it finds a free cell. -/
theorem findFree_inQueue_iff (hqueue : buffer = .inBuffer ∨ buffer = .outBuffer) :
    (t.findFree buffer).All (InQueue t.bufferSize) ↔ t.HasRoom buffer := by
  constructor
  · intro hall
    by_contra hfull
    exact not_inQueue_reach hqueue (findFree_reaches hfull hall)
  · intro hroom
    exact (findFree_holds hroom fun _ hposition => inQueue_of_lt_reach hposition).1

/-- What follows the search inside the queue is done with the first free cell. -/
theorem findFree_bind_inQueue_iff {α : Type} {next : Word32 → Logged Access α}
    (hqueue : buffer = .inBuffer ∨ buffer = .outBuffer) :
    (t.findFree buffer >>= next).All (InQueue t.bufferSize) ↔ t.HasRoom buffer ∧
      ∀ o, t.FirstZero buffer o → (t.findFree buffer).result = some o →
        (next o).All (InQueue t.bufferSize) := by
  rw [all_bind, findFree_inQueue_iff hqueue]
  apply and_congr_right
  intro hroom
  constructor
  · exact fun hnext o _ hresult => hnext o hresult
  · intro hnext o hresult
    exact hnext o ((findFree_holds (P := anywhere) hroom fun _ _ => trivial).2 o hresult) hresult

theorem enqueue_inQueue_iff (chr : Byte) :
    (enqueue t chr).All (InQueue t.bufferSize) ↔ t.HasRoom .inBuffer := by
  rw [enqueue, findFree_bind_inQueue_iff (.inl rfl)]
  refine and_iff_left fun i hfirst _ => (all_access _ _).mpr ?_
  rw [toInt_of_lt_reach hfirst.inside]
  exact inQueue_of_lt_reach hfirst.inside

/-! ## The loop that copies the string -/

/-- The loop of `print` from the free cell `o` on. -/
def copyLoop (t : Terminal) (string : Word32 → Byte) (o : Word32) :
    Logged Access (Word32 × Terminal) :=
  forInt (fun i _ => pure (string i == 0)) (fun i t => t.write .outBuffer (o + i) (string i))
    passes 0 t

theorem Zeros.next {i : Word32} (hzeros : Zeros string i.toNat) (hzero : string i = 0) :
    Zeros string (i.toNat + 1) := by
  intro position hposition
  rcases Nat.lt_succ_iff_lt_or_eq.mp hposition with hearlier | rfl
  · exact hzeros position hearlier
  · rwa [BitVec.ofNat_toNat, BitVec.setWidth_eq]

theorem copyLoop_inside
    (hfit : ∀ count, Zeros string count → o.toNat + count ≤ t.reach) :
    (copyLoop t string o).All (InQueue t.bufferSize) := by
  have hbound : t.reach ≤ 2 ^ 31 := min_le_right _ _
  refine (forInt_holds (Q := fun _ => True) (fun i _ => Zeros string i.toNat) ?_
    fun _ hnone => absurd hnone (Nat.not_lt_zero _)).1
  intro i current hzeros
  apply holds_pure
  split_ifs with hagain
  · have hnext := hzeros.next (beq_iff_eq.mp hagain)
    have hplace := hfit _ hnext
    have hindex : (o + i).toNat = o.toNat + i.toNat := by
      rw [BitVec.toNat_add]
      omega
    have hcounter : (i + 1).toNat = i.toNat + 1 := by
      rw [BitVec.toNat_add, show (1 : Word32).toNat = 1 from rfl]
      omega
    refine holds_access ?_ (hcounter ▸ hnext)
    rw [toInt_of_lt_reach (t := t) (by omega)]
    exact inQueue_of_lt_reach (by omega)

/-- A zero too many is stored in the first cell that `reach` leaves out. -/
theorem copyLoop_leaves (hfirst : t.FirstZero .outBuffer o) {count : ℕ}
    (hzeros : Zeros string count) (hlong : t.reach < o.toNat + count) :
    ¬ (copyLoop t string o).All (InQueue t.bufferSize) := by
  intro hall
  have hbound : t.reach ≤ 2 ^ 31 := min_le_right _ _
  have hinside := hfirst.inside
  obtain ⟨current, _, hstore⟩ := forInt_performs (fun _ => True) trivial
    (fun done hdone current _ => by
      rw [counter_zero, hzeros done (by omega)]
      exact ⟨rfl, _, rfl, trivial⟩)
    (show t.reach - o.toNat < passes by unfold passes; omega) hall
  have hindex : o + BitVec.ofNat 32 (t.reach - o.toNat) = BitVec.ofNat 32 t.reach := by
    apply BitVec.eq_of_toNat_eq
    rw [BitVec.toNat_add, BitVec.toNat_ofNat, BitVec.toNat_ofNat]
    omega
  rw [counter_zero, hindex] at hstore
  exact not_inQueue_reach (.inr rfl) ((all_access _ _).mp hstore)

theorem print_inQueue_iff : (t.print string).All (InQueue t.bufferSize) ↔
    t.HasRoom .outBuffer ∧ ∀ o, t.FirstZero .outBuffer o → ∀ count, Zeros string count →
      o.toNat + count ≤ t.reach := by
  rw [Terminal.print, findFree_bind_inQueue_iff (.inr rfl)]
  apply and_congr_right
  intro hroom
  constructor
  · intro hcopy o hfirst count hzeros
    by_contra hlong
    obtain ⟨found, hfound, hsame⟩ := findFree_finds hroom
    obtain rfl := hsame.unique hfirst
    have hall := hcopy found hfirst hfound
    rw [all_bind] at hall
    exact copyLoop_leaves hfirst hzeros (not_le.mp hlong) hall.1
  · intro hfit o hfirst _
    rw [all_bind]
    exact ⟨copyLoop_inside (hfit o hfirst), fun _ _ => all_pure _⟩

/-! ## Runs -/

theorem call_inQueue_iff (m : Machine) (event : Event) :
    (call beyond m event).All (InQueue m.terminal.bufferSize) ↔ HasSpace beyond m event := by
  cases event with
  | key scancode =>
      rw [call, Machine.handleKeyboard, HasSpace]
      cases hdecode : (m.keyboard.decode beyond scancode).2 with
      | none => simp
      | some chr => simp [enqueue_inQueue_iff]
  | print string =>
      rw [call, all_bind, print_inQueue_iff]
      exact and_iff_left fun _ _ => all_pure _

/-- A queue that has room is not full. -/
theorem not_full_of_hasRoom (hroom : t.HasRoom buffer) : ¬ Full t buffer := by
  obtain ⟨position, hposition, hzero⟩ := hroom
  exact fun hfull => hfull position (lt_of_lt_of_le hposition (min_le_left _ _)) hzero

theorem bounded_iff (m : Machine) (event : Event) :
    Bounded beyond m event ↔ HasSpace beyond m event := by
  rw [Bounded, call_inQueue_iff]
  apply and_iff_left_of_imp
  intro hspace hfull m' hstep
  cases event with
  | print string => exact absurd hfull (not_full_of_hasRoom hspace.1)
  | key scancode =>
      have heffect := step_key (m := m) hstep
      cases hdecode : (m.keyboard.decode beyond scancode).2 with
      | some chr => exact absurd hfull (not_full_of_hasRoom (hspace (by simp [hdecode])))
      | none =>
          simp only [Machine.enqueues, hdecode] at heffect
          rw [heffect]

/-- In every run of the keyboard and of `print`, whatever the queues hold, the accesses
stay inside and a full queue drops what comes exactly when each step has space. -/
theorem producers_bounded_iff (beyond : Byte) (m : Machine) (events : List Event) :
    Meets (step beyond) (Bounded beyond) m events ↔
      Meets (step beyond) (HasSpace beyond) m events :=
  meets_congr (fun _ => True) trivial (fun _ _ _ _ _ => trivial)
    fun m event _ => bounded_iff m event

instance (t : Terminal) (buffer : Buffer) : Decidable (Full t buffer) :=
  inferInstanceAs (Decidable (∀ position < _, _))

/-- Eight times `a`, for the eight cells of `in`. -/
def fullQueue : List Event := List.replicate 8 (.key 0x1E)

/-- The ninth `a` is stored in the cell behind the queue, which was tested before. -/
theorem ninth_character_stored :
    (∃ m m', run (step 0) eightCells fullQueue = some m ∧ Full m.terminal .inBuffer ∧
      m.terminal.cells .inBuffer 8 = 0 ∧ (.inBuffer, 8) ∈ (call 0 m (.key 0x1E)).log ∧
      step 0 m (.key 0x1E) = some m' ∧ m'.terminal.cells .inBuffer 8 = 0x61) ∧
      ¬ Meets (step 0) (Bounded 0) eightCells (fullQueue ++ [.key 0x1E]) := by
  have hbefore : (run (step 0) eightCells fullQueue).map (fun m =>
      (m.terminal.bufferSize, decide (Full m.terminal .inBuffer), m.terminal.cells .inBuffer 8,
        decide ((.inBuffer, 8) ∈ (call 0 m (.key 0x1E)).log),
        (step 0 m (.key 0x1E)).map fun m' => m'.terminal.cells .inBuffer 8)) =
      some (8, true, 0, true, some 0x61) := by
    decide +kernel
  obtain ⟨m, hm, hstate⟩ := Option.map_eq_some_iff.mp hbefore
  simp only [Prod.mk.injEq, decide_eq_true_eq] at hstate
  obtain ⟨hsize, hfull, hfree, hlog, hafter⟩ := hstate
  obtain ⟨m', hstep, hcell⟩ := Option.map_eq_some_iff.mp hafter
  refine ⟨⟨m, m', hm, hfull, hfree, hlog, hstep, hcell⟩, fun hmeets => ?_⟩
  have hplace := ((hmeets.last hm).1 _ hlog (.inl rfl)).2
  rw [hsize] at hplace
  exact absurd hplace (by decide)

end RedX.QueueBounds
