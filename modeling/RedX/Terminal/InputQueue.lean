import RedX.Core.RewindQueue
import RedX.Terminal.Keyboard

/-!
# The keyboard queue

The keyboard puts a character in the first free cell of `terminal.in` and the
handler walks the buffer with `ii`, so a character that finds every cell below
`ii` occupied lands behind the handler's older characters and in front of the
newer ones.  The queue is first in, first out exactly as long as no character
arrives like that.
-/

namespace RedX.InputQueue

open RedX.MachineWord
open RedX.PartialRun
open RedX.RewindQueue
open RedX.AccessLog
open RedX.TextTerminal
open RedX.KeyboardInput

/-- A machine with the characters that went into `in` and came out of it. -/
structure History where
  machine : Machine
  enqueued : List Byte
  consumed : List Byte

def History.start (machine : Machine) : History := ⟨machine, [], []⟩

/-- The character that an event consumes. -/
def consumes (m : Machine) : Event → Option Byte
  | .key _ => none
  | .handler => if m.terminal.nextInput = 0 then none else some m.terminal.nextInput

def History.step (beyond : Byte) (h : History) (event : Event) : Option History :=
  (h.machine.step beyond event).map fun machine =>
    { machine := machine
      enqueued := h.enqueued ++ (h.machine.enqueues beyond event).toList
      consumed := h.consumed ++ (consumes h.machine event).toList }

/-- The number of characters enqueued and not yet consumed. -/
def History.pending (h : History) : ℕ := h.enqueued.length - h.consumed.length

def InputEmpty (t : Terminal) : Prop :=
  ∀ position < t.bufferSize.toNat, t.cells .inBuffer position = 0

/-- A character leaves fewer than `bufferSize` pending. -/
def Bounded (beyond : Byte) (h : History) (event : Event) : Prop :=
  h.machine.enqueues beyond event ≠ none → h.pending + 1 < h.machine.terminal.bufferSize.toNat

/-- A character arrives while `ii` is 0 or a cell below `ii` is free, and leaves fewer
pending than an `int` can count. -/
def Orderly (beyond : Byte) (h : History) (event : Event) : Prop :=
  h.machine.enqueues beyond event ≠ none →
    h.pending + 1 < 2 ^ 31 ∧ (h.machine.terminal.ii = 0 ∨
      ∃ position < h.machine.terminal.ii.toNat, h.machine.terminal.cells .inBuffer position = 0)

instance (beyond : Byte) (h : History) (event : Event) : Decidable (Bounded beyond h event) :=
  inferInstanceAs (Decidable (_ → _))

instance (beyond : Byte) (h : History) (event : Event) : Decidable (Orderly beyond h event) :=
  inferInstanceAs (Decidable (_ → _))

instance (t : Terminal) : Decidable (InputEmpty t) :=
  inferInstanceAs (Decidable (∀ position < _, _))

/-- What `in` holds is the queue `ahead ++ behind`. -/
def Queued (t : Terminal) (ahead behind : List Byte) : Prop :=
  Stored 0 (fun position : ℕ => t.cells .inBuffer position) t.reach t.ii.toNat ahead behind

variable {beyond : Byte} {t t' : Terminal} {h h' : History} {ahead behind : List Byte}

theorem update_natCast (cells : ℤ → Byte) (index : ℕ) (chr : Byte) :
    (fun position : ℕ => Function.update cells (index : ℤ) chr position) =
      Function.update (fun position : ℕ => cells position) index chr :=
  Function.update_comp_eq_of_injective cells (fun _ _ => Int.ofNat.inj) index chr

theorem reach_congr (hsize : t'.bufferSize = t.bufferSize) : t'.reach = t.reach := by
  rw [Terminal.reach, Terminal.reach, hsize]

/-- A call of `handler` takes the first pending character, if it is ahead. -/
theorem queued_handler (hqueued : Queued t ahead behind)
    (hhandler : t.handler.result = some t') :
    ∃ ahead' behind', Queued t' ahead' behind' ∧
      ahead ++ behind = (if t.nextInput = 0 then none else some t.nextInput).toList ++
        (ahead' ++ behind') := by
  have hdrained := (handler_drains hhandler).1
  have hqueue : (t'.cells .inBuffer, t'.ii) = if t.nextInput = 0 then (t.cells .inBuffer, 0)
      else (Function.update (t.cells .inBuffer) t.ii.toInt 0, t.ii + 1) := hdrained.queue
  have hreach := reach_congr hdrained.bufferSize
  have hindex : t.ii.toNat < t.reach := Nat.lt_of_le_of_lt (Nat.le_add_right _ _) hqueued.ahead_lt
  have hint := toInt_of_lt_reach hindex
  by_cases hfree : t.nextInput = 0
  · rw [if_pos hfree, Prod.mk.injEq] at hqueue
    have hcell : t.cells .inBuffer t.ii.toNat = 0 := by rw [← hint]; exact hfree
    obtain ⟨rfl, hrewound⟩ := Stored.rewind hqueued hcell
    refine ⟨behind, [], ?_, by simp [hfree]⟩
    rw [Queued, hqueue.1, hqueue.2, hreach]
    exact hrewound
  · rw [if_neg hfree, Prod.mk.injEq, hint] at hqueue
    have hcell : t.cells .inBuffer t.ii.toNat ≠ 0 := by rw [← hint]; exact hfree
    obtain ⟨rest, hahead, hadvanced⟩ := Stored.advance hqueued hcell
    have hnext : (t.ii + 1).toNat = t.ii.toNat + 1 := by
      have hbound : t.reach ≤ 2 ^ 31 := Nat.min_le_right _ _
      rw [BitVec.toNat_add, show (1 : Word32).toNat = 1 from rfl]
      omega
    refine ⟨rest, behind, ?_, ?_⟩
    · rw [Queued, hqueue.1, hqueue.2, hreach, hnext, update_natCast]
      exact hadvanced
    · rw [hahead, if_neg hfree, Terminal.nextInput, hint]
      rfl

theorem queued_put {chr : Byte} {i : Word32} (hfirst : t.FirstZero .inBuffer i)
    (hstored : Stored 0
      (Function.update (fun position : ℕ => t.cells .inBuffer position) i.toNat chr) t.reach
        t.ii.toNat ahead behind) : Queued (t.put .inBuffer i chr) ahead behind := by
  rw [Queued, put_cells_self, toInt_of_lt_reach hfirst.inside, update_natCast]
  exact hstored

/-- The keyboard's search ends at the first free cell. -/
theorem queued_findFree {i : Word32} (hqueued : Queued t ahead behind)
    (hfree : (t.findFree .inBuffer).result = some i) : t.FirstZero .inBuffer i :=
  (findFree_holds (P := anywhere) hqueued.exists_free fun _ _ => trivial).2 i hfree

/-- A character goes to the end of the queue if the first free cell is there. -/
theorem queued_enqueue {chr : Byte} {i : Word32} (hqueued : Queued t ahead behind)
    (hchr : chr ≠ 0) (hfree : (t.findFree .inBuffer).result = some i)
    (hroom : ahead.length + behind.length + 1 < t.reach)
    (hgap : t.ii = 0 ∨ ∃ position < t.ii.toNat, t.cells .inBuffer position = 0) :
    ∃ ahead' behind', Queued (t.put .inBuffer i chr) ahead' behind' ∧
      ahead' ++ behind' = ahead ++ behind ++ [chr] := by
  have hfirst := queued_findFree hqueued hfree
  obtain ⟨ahead', behind', happend, hput⟩ := Stored.put hqueued hchr hfirst.zero hfirst.before
    hroom (hgap.imp_left fun hzero => by rw [hzero]; rfl)
  exact ⟨ahead', behind', queued_put hfirst hput, happend⟩

/-- A character that finds every cell below `ii` occupied overtakes the characters there,
of which there are `ii`. -/
theorem queued_overtaken {chr : Byte} {i : Word32} (hqueued : Queued t ahead behind)
    (hchr : chr ≠ 0) (hfree : (t.findFree .inBuffer).result = some i)
    (hroom : t.ii.toNat + ahead.length + 1 < t.reach)
    (hfull : ∀ position < t.ii.toNat, t.cells .inBuffer position ≠ 0) :
    behind.length = t.ii.toNat ∧ Queued (t.put .inBuffer i chr) (ahead ++ [chr]) behind := by
  have hfirst := queued_findFree hqueued hfree
  obtain ⟨hlength, hput⟩ :=
    Stored.put_overtakes hqueued hchr hfirst.zero hfirst.before hroom hfull
  exact ⟨hlength, queued_put hfirst hput⟩

/-- The characters enqueued are those consumed followed by the queue. -/
def Ordered (h : History) : Prop :=
  ∃ ahead behind, Queued h.machine.terminal ahead behind ∧
    h.enqueued = h.consumed ++ (ahead ++ behind)

theorem ordered_step {event : Event} (hordered : Ordered h)
    (hcond : Bounded beyond h event ∧ Orderly beyond h event)
    (hstep : h.step beyond event = some h') : Ordered h' := by
  obtain ⟨ahead, behind, hqueued, hfifo⟩ := hordered
  obtain ⟨machine, hmachine, rfl⟩ := Option.map_eq_some_iff.mp hstep
  have hpending : h.pending = ahead.length + behind.length := by
    rw [History.pending, hfifo, List.length_append, List.length_append, Nat.add_sub_cancel_left]
  cases event with
  | handler =>
      obtain ⟨ahead', behind', hqueued', htaken⟩ := queued_handler hqueued (step_handler hmachine)
      refine ⟨ahead', behind', hqueued', ?_⟩
      change h.enqueued ++ [] = h.consumed ++ (consumes h.machine .handler).toList ++ _
      rw [List.append_nil, hfifo, htaken, List.append_assoc]
      rfl
  | key scancode =>
      have heffect := step_key hmachine
      change ∃ ahead behind, Queued machine.terminal ahead behind ∧
        h.enqueued ++ (h.machine.enqueues beyond (.key scancode)).toList =
          h.consumed ++ [] ++ (ahead ++ behind)
      cases henqueues : h.machine.enqueues beyond (.key scancode) with
      | none =>
          rw [henqueues] at heffect
          exact ⟨ahead, behind, heffect ▸ hqueued, by simp [hfifo]⟩
      | some chr =>
          rw [henqueues] at heffect
          obtain ⟨i, hfree, hput⟩ := heffect
          have hbounded := hcond.1 (by simp [henqueues])
          obtain ⟨hint, hgap⟩ := hcond.2 (by simp [henqueues])
          rw [hpending] at hbounded hint
          obtain ⟨ahead', behind', hqueued', happend⟩ := queued_enqueue hqueued
            (decode_ne_zero henqueues) hfree (Nat.lt_min.mpr ⟨hbounded, hint⟩) hgap
          refine ⟨ahead', behind', hput ▸ hqueued', ?_⟩
          rw [happend, hfifo]
          simp

/-- From an empty `in`, as long as every character arrives in order, the handler
consumes the characters in the order of their arrival, and all of them once `in` is
empty. -/
theorem input_fifo {machine : Machine} {events : List Event} {final : History}
    (hsize : 0 < machine.terminal.bufferSize) (hii : machine.terminal.ii = 0)
    (hempty : InputEmpty machine.terminal)
    (hmeets : Meets (History.step beyond)
      (fun h event => Bounded beyond h event ∧ Orderly beyond h event) (.start machine) events)
    (hrun : run (History.step beyond) (.start machine) events = some final) :
    final.consumed <+: final.enqueued ∧
      (InputEmpty final.machine.terminal → final.consumed = final.enqueued) := by
  have hordered : Ordered final := by
    refine run_meets_invariant Ordered ⟨[], [], ?_, rfl⟩
      (fun _ _ _ hordered hcond hstep => ordered_step hordered hcond hstep) hmeets hrun
    rw [Queued, show (History.start machine).machine.terminal.ii = 0 from hii]
    exact stored_nil (Nat.lt_min.mpr ⟨hsize, by omega⟩) fun position hposition =>
      hempty position (Nat.lt_of_lt_of_le hposition (Nat.min_le_left _ _))
  obtain ⟨ahead, behind, hqueued, hfifo⟩ := hordered
  refine ⟨⟨ahead ++ behind, hfifo.symm⟩, fun hnone => ?_⟩
  rw [hfifo, Stored.eq_nil hqueued fun position hposition =>
    hnone position (Nat.lt_of_lt_of_le hposition (Nat.min_le_left _ _)), List.append_nil]

/-! ## Runs on a small screen -/

/-- `a` is consumed before `b` comes: its cell is free again. -/
def alternating : List Event := [.key 0x1E, .handler, .key 0x30, .handler, .handler]

/-- `b` and `c` come after `a` is consumed: `b` takes the cell of `a` and `c` the cell that
the handler looks at next. -/
def overtaking : List Event :=
  [.key 0x1E, .handler, .key 0x30, .key 0x2E, .handler, .handler, .handler]

theorem input_fifo_alternating :
    ∃ final, run (History.step 0) (.start eightCells) alternating = some final ∧
      final.consumed <+: final.enqueued ∧
      (InputEmpty final.machine.terminal → final.consumed = final.enqueued) := by
  have hreturns : (run (History.step 0) (.start eightCells) alternating).isSome := by
    decide +kernel
  obtain ⟨final, hrun⟩ := Option.isSome_iff_exists.mp hreturns
  exact ⟨final, hrun, input_fifo (by decide +kernel) rfl (by decide +kernel)
    (by decide +kernel) hrun⟩

/-- The characters `a`, `b` and `c` are typed and `a`, `c` and `b` consumed. -/
theorem key_overtakes :
    0 < eightCells.terminal.bufferSize ∧ eightCells.terminal.ii = 0 ∧
      InputEmpty eightCells.terminal ∧
      Meets (History.step 0) (Bounded 0) (.start eightCells) overtaking ∧
      ∃ final, run (History.step 0) (.start eightCells) overtaking = some final ∧
        ¬ final.consumed <+: final.enqueued ∧
        InputEmpty final.machine.terminal ∧ final.consumed ≠ final.enqueued := by
  have hlists : (run (History.step 0) (.start eightCells) overtaking).map
      (fun final => (final.enqueued, final.consumed, decide (InputEmpty final.machine.terminal))) =
        some (literal "abc", literal "acb", true) := by
    decide +kernel
  obtain ⟨final, hrun, hfinal⟩ := Option.map_eq_some_iff.mp hlists
  simp only [Prod.mk.injEq, decide_eq_true_eq] at hfinal
  obtain ⟨henqueued, hconsumed, hempty⟩ := hfinal
  refine ⟨by decide +kernel, rfl, by decide +kernel, by decide +kernel, final, hrun, ?_, hempty, ?_⟩
  · rw [henqueued, hconsumed]
    decide +kernel
  · rw [henqueued, hconsumed]
    decide +kernel

end RedX.InputQueue
