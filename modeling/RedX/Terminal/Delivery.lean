import RedX.Terminal.PoolPages

/-!
# Delivery of the typed characters

A character that arrives while the cells below `ii` are taken overtakes older ones, so the
order of the keyboard queue may change.  Nothing else does: in every interleaving of
interrupts and calls of `handler` each character that was enqueued is consumed once or is
still in its cell, and however many come in the meantime, the handler reaches it within as
many calls as the buffer has cells, and one more.
-/

namespace RedX.Delivery

open RedX.MachineWord
open RedX.PartialRun
open RedX.RewindQueue
open RedX.TextTerminal
open RedX.KeyboardInput
open RedX.InputQueue
open RedX.PoolPages

/-- The characters in `in`, from its first cell on. -/
def waiting (t : Terminal) : List Byte :=
  held 0 (fun position : ℕ => t.cells .inBuffer position) t.reach

/-- A character that arrives leaves a free cell. -/
def Roomy (beyond : Byte) (h : History) (event : Event) : Prop :=
  h.machine.enqueues beyond event ≠ none →
    (waiting h.machine.terminal).length + 1 < h.machine.terminal.reach

instance (beyond : Byte) (h : History) (event : Event) : Decidable (Roomy beyond h event) :=
  inferInstanceAs (Decidable (_ → _))

/-- The calls of `handler` among the events. -/
def handlers : List Event → ℕ
  | [] => 0
  | .key _ :: events => handlers events
  | .handler :: events => handlers events + 1

variable {beyond : Byte} {t t' : Terminal} {h h' : History} {ahead behind : List Byte}

/-- The queue holds what was enqueued and not consumed. -/
def Delivers (h : History) : Prop :=
  ∃ ahead behind, Queued h.machine.terminal ahead behind ∧
    (h.consumed ++ (ahead ++ behind)).Perm h.enqueued

theorem waiting_eq (hqueued : Queued t ahead behind) : waiting t = behind ++ ahead :=
  Stored.held_eq hqueued

theorem Delivers.exists_queued (hdelivers : Delivers h) :
    ∃ ahead behind, Queued h.machine.terminal ahead behind :=
  let ⟨ahead, behind, hqueued, _⟩ := hdelivers
  ⟨ahead, behind, hqueued⟩

theorem Delivers.perm (hdelivers : Delivers h) :
    (h.consumed ++ waiting h.machine.terminal).Perm h.enqueued := by
  obtain ⟨ahead, behind, hqueued, hperm⟩ := hdelivers
  rw [waiting_eq hqueued]
  exact (List.perm_append_comm.append_left h.consumed).trans hperm

/-- A character that arrives is put into a cell of its own. -/
theorem queued_arrival {chr : Byte} {i : Word32} (hqueued : Queued t ahead behind)
    (hchr : chr ≠ 0) (hfree : (t.findFree .inBuffer).result = some i)
    (hroom : (waiting t).length + 1 < t.reach) :
    ∃ ahead' behind', Queued (t.put .inBuffer i chr) ahead' behind' ∧
      (ahead' ++ behind').Perm (ahead ++ behind ++ [chr]) := by
  have hfirst := queued_findFree hqueued hfree
  rw [waiting_eq hqueued, List.length_append] at hroom
  obtain ⟨ahead', behind', hperm, hput⟩ :=
    Stored.put_perm hqueued hchr hfirst.zero hfirst.before (by omega)
  exact ⟨ahead', behind', queued_put hfirst hput, hperm⟩

/-! ## What the two events do -/

theorem handler_cases (hstep : h.step beyond .handler = some h') :
    h.machine.terminal.handler.result = some h'.machine.terminal ∧ h'.enqueued = h.enqueued ∧
      h'.consumed = h.consumed ++ (consumes h.machine .handler).toList := by
  obtain ⟨machine, hmachine, rfl⟩ := Option.map_eq_some_iff.mp hstep
  exact ⟨step_handler hmachine, List.append_nil _, rfl⟩

theorem key_cases {scancode : Byte} (hstep : h.step beyond (.key scancode) = some h') :
    h'.consumed = h.consumed ∧
      (h'.machine.terminal = h.machine.terminal ∧ h'.enqueued = h.enqueued ∨
        ∃ chr i, h.machine.enqueues beyond (.key scancode) = some chr ∧
          (h.machine.terminal.findFree .inBuffer).result = some i ∧
          h'.machine.terminal = h.machine.terminal.put .inBuffer i chr ∧
          h'.enqueued = h.enqueued ++ [chr]) := by
  obtain ⟨machine, hmachine, rfl⟩ := Option.map_eq_some_iff.mp hstep
  have heffect := step_key hmachine
  refine ⟨List.append_nil _, ?_⟩
  cases henqueues : h.machine.enqueues beyond (.key scancode) with
  | none =>
      rw [henqueues] at heffect
      exact .inl ⟨heffect, List.append_nil _⟩
  | some chr =>
      rw [henqueues] at heffect
      obtain ⟨i, hfree, hput⟩ := heffect
      exact .inr ⟨chr, i, rfl, hfree, hput, rfl⟩

theorem delivers_step {event : Event} (hdelivers : Delivers h) (hroomy : Roomy beyond h event)
    (hstep : h.step beyond event = some h') : Delivers h' := by
  obtain ⟨ahead, behind, hqueued, hperm⟩ := hdelivers
  cases event with
  | handler =>
      obtain ⟨hhandler, henqueued, hconsumed⟩ := handler_cases hstep
      obtain ⟨ahead', behind', hqueued', htaken⟩ := queued_handler hqueued hhandler
      refine ⟨ahead', behind', hqueued', ?_⟩
      rw [henqueued, hconsumed, List.append_assoc]
      exact htaken ▸ hperm
  | key scancode =>
      obtain ⟨hconsumed, ⟨hsame, henqueued⟩ | ⟨chr, i, henqueues, hfree, hput, henqueued⟩⟩ :=
        key_cases hstep
      · exact ⟨ahead, behind, hsame ▸ hqueued, by rwa [hconsumed, henqueued]⟩
      · obtain ⟨ahead', behind', hqueued', harrived⟩ := queued_arrival hqueued
          (decode_ne_zero henqueues) hfree (hroomy (by simp [henqueues]))
        refine ⟨ahead', behind', hput ▸ hqueued', ?_⟩
        rw [hconsumed, henqueued]
        calc (h.consumed ++ (ahead' ++ behind')).Perm
              (h.consumed ++ (ahead ++ behind ++ [chr])) := harrived.append_left h.consumed
          _ = h.consumed ++ (ahead ++ behind) ++ [chr] := (List.append_assoc ..).symm
          (h.consumed ++ (ahead ++ behind) ++ [chr]).Perm (h.enqueued ++ [chr]) :=
            hperm.append_right [chr]

theorem delivers_start {machine : Machine} (hsize : 0 < machine.terminal.bufferSize)
    (hii : machine.terminal.ii = 0) (hempty : InputEmpty machine.terminal) :
    Delivers (.start machine) := by
  refine ⟨[], [], ?_, .nil⟩
  rw [Queued, show (History.start machine).machine.terminal.ii = 0 from hii]
  exact stored_nil (Nat.lt_min.mpr ⟨hsize, by omega⟩) fun position hposition =>
    hempty position (Nat.lt_of_lt_of_le hposition (Nat.min_le_left _ _))

/-- From an empty `in`, in every run in which a character that arrives leaves a free cell, the
characters consumed and those still in `in` are the characters enqueued, each as often. -/
theorem keys_delivered {machine : Machine} {events : List Event} {final : History}
    (hsize : 0 < machine.terminal.bufferSize) (hii : machine.terminal.ii = 0)
    (hempty : InputEmpty machine.terminal)
    (hroomy : Meets (History.step beyond) (Roomy beyond) (.start machine) events)
    (hrun : run (History.step beyond) (.start machine) events = some final) :
    (final.consumed ++ waiting final.machine.terminal).Perm final.enqueued :=
  (run_meets_invariant Delivers (delivers_start hsize hii hempty)
    (fun _ _ _ => delivers_step) hroomy hrun).perm

/-- Four characters, of which the last overtakes the third. -/
theorem keys_delivered_overtaken :
    ∃ final, run (History.step 0) (.start eightCells) (overtaking ++ [.key 0x20]) = some final ∧
      (final.consumed ++ waiting final.machine.terminal).Perm final.enqueued := by
  have hreturns : (run (History.step 0) (.start eightCells) (overtaking ++ [.key 0x20])).isSome := by
    decide +kernel
  obtain ⟨final, hrun⟩ := Option.isSome_iff_exists.mp hreturns
  exact ⟨final, hrun, keys_delivered (by decide +kernel) rfl (by decide +kernel)
    (by decide +kernel) hrun⟩

/-! ## No character starves -/

/-- `handler` is about to consume the character `chr` of the cell `position`. -/
def Takes (h : History) (position : ℕ) (chr : Byte) : Prop :=
  h.machine.terminal.ii.toNat = position ∧ consumes h.machine .handler = some chr

/-- The character `chr` is in the cell `position`. -/
structure Waits (h : History) (position : ℕ) (chr : Byte) : Prop where
  inside : position < h.machine.terminal.reach
  cell : h.machine.terminal.cells .inBuffer position = chr
  proper : chr ≠ 0

variable {position : ℕ} {chr : Byte}

/-- The calls of `handler` that the character in a cell waits for. -/
def delay (h : History) (position : ℕ) : ℕ :=
  RewindQueue.wait h.machine.terminal.reach h.machine.terminal.ii.toNat position

/-- A key leaves the characters in their cells and the handler where it is. -/
theorem Waits.key {scancode : Byte} (hwaits : Waits h position chr) (hdelivers : Delivers h)
    (hstep : h.step beyond (.key scancode) = some h') :
    Waits h' position chr ∧ delay h' position = delay h position := by
  obtain ⟨hinside, hcell, hproper⟩ := hwaits
  obtain ⟨ahead, behind, hqueued⟩ := hdelivers.exists_queued
  rcases (key_cases hstep).2 with ⟨hsame, -⟩ | ⟨typed, i, -, hfree, hput, -⟩
  · rw [delay, delay, hsame]
    exact ⟨⟨hsame ▸ hinside, hsame ▸ hcell, hproper⟩, rfl⟩
  · have hfirst := queued_findFree hqueued hfree
    have hother : (position : ℤ) ≠ i.toInt := by
      rw [toInt_of_lt_reach hfirst.inside]
      rintro hsame
      rw [Int.ofNat.inj hsame] at hcell
      exact hproper (hcell.symm.trans hfirst.zero)
    rw [delay, delay, hput]
    refine ⟨⟨hput ▸ hinside, ?_, hproper⟩, rfl⟩
    rw [hput, put_cells_self, Function.update_of_ne hother]
    exact hcell

/-- A call of `handler` takes the character or comes nearer to it. -/
theorem Waits.handler (hwaits : Waits h position chr) (hdelivers : Delivers h)
    (hother : ¬ Takes h position chr) (hstep : h.step beyond .handler = some h') :
    Waits h' position chr ∧ delay h' position + 1 ≤ delay h position := by
  obtain ⟨hinside, hcell, hproper⟩ := hwaits
  obtain ⟨ahead, behind, hqueued⟩ := hdelivers.exists_queued
  have hdrained := (handler_drains (handler_cases hstep).1).1
  have hreach := reach_congr hdrained.bufferSize
  have hqueue := hdrained.queue
  have hindex : h.machine.terminal.ii.toNat < h.machine.terminal.reach :=
    Nat.lt_of_le_of_lt (Nat.le_add_right _ _) hqueued.ahead_lt
  have hint := toInt_of_lt_reach hindex
  rw [drain, hint] at hqueue
  rw [delay, delay, hreach]
  split_ifs at hqueue with hfree
  · rw [Prod.mk.injEq] at hqueue
    refine ⟨⟨hreach ▸ hinside, hqueue.1 ▸ hcell, hproper⟩, ?_⟩
    rw [hqueue.2]
    exact Stored.wait_rewind hqueued hfree hinside (hcell ▸ hproper)
  · rw [Prod.mk.injEq] at hqueue
    have hbound : h.machine.terminal.reach ≤ 2 ^ 31 := Nat.min_le_right _ _
    have hnext : (h.machine.terminal.ii + 1).toNat = h.machine.terminal.ii.toNat + 1 := by
      rw [BitVec.toNat_add, show (1 : Word32).toNat = 1 from rfl]
      omega
    have hdiffers : h.machine.terminal.ii.toNat ≠ position := by
      rintro rfl
      refine hother ⟨rfl, ?_⟩
      rw [consumes, Terminal.nextInput, hint, if_neg hfree, hcell]
    refine ⟨⟨hreach ▸ hinside, ?_, hproper⟩, ?_⟩
    · rw [hqueue.1, Function.update_of_ne (by omega)]
      exact hcell
    · rw [hqueue.2, hnext]
      exact Stored.wait_advance hqueued hdiffers

theorem exists_takes {events : List Event} {final : History} (hwaits : Waits h position chr)
    (hdelivers : Delivers h) (hroomy : Meets (pagedStep beyond) (Roomy beyond) h events)
    (hrun : run (pagedStep beyond) h events = some final)
    (hcalls : delay h position < handlers events) :
    ∃ before state, before ++ [.handler] <+: events ∧
      run (pagedStep beyond) h before = some state ∧ Takes state position chr := by
  induction events generalizing h with
  | nil => exact absurd hcalls (Nat.not_lt_zero _)
  | cons event events ih =>
      by_cases htakes : event = .handler ∧ Takes h position chr
      · obtain ⟨rfl, htakes⟩ := htakes
        exact ⟨[], h, ⟨events, rfl⟩, rfl, htakes⟩
      rw [run_cons, Option.bind_eq_some_iff] at hrun
      obtain ⟨next, hpaged, hrest⟩ := hrun
      have hstep := step_of_paged hpaged
      have hcloser : Waits next position chr ∧ delay next position < handlers events := by
        cases event with
        | key scancode =>
            obtain ⟨hwaits', hsame⟩ := hwaits.key hdelivers hstep
            exact ⟨hwaits', hsame ▸ hcalls⟩
        | handler =>
            obtain ⟨hwaits', hless⟩ := hwaits.handler hdelivers
              (fun htaken => htakes ⟨rfl, htaken⟩) hstep
            rw [handlers] at hcalls
            exact ⟨hwaits', by omega⟩
      obtain ⟨before, state, hprefix, hbefore, htaken⟩ := ih hcloser.1
        (delivers_step hdelivers hroomy.1 hstep) (hroomy.2 next hpaged) hrest hcloser.2
      refine ⟨event :: before, state, ?_, ?_, htaken⟩
      · exact List.cons_prefix_cons.mpr ⟨rfl, hprefix⟩
      · rw [run_cons, hpaged]
        exact hbefore

/-! ## How many calls empty the queue -/

/-- Some cell that the handler has left behind is taken. -/
def LeftBehind (t : Terminal) : Prop := ∃ position < t.ii.toNat, t.cells .inBuffer position ≠ 0

instance (t : Terminal) : Decidable (LeftBehind t) :=
  inferInstanceAs (Decidable (∃ position < _, _))

/-- The calls of `handler` that empty the queue: one for each character, and one to go back. -/
def due (t : Terminal) : ℕ := (waiting t).length + if LeftBehind t then 1 else 0

theorem due_le (t : Terminal) : due t ≤ (waiting t).length + 1 := by
  unfold due
  split_ifs <;> omega

theorem waiting_eq_nil (hdue : due t = 0) : waiting t = [] :=
  List.length_eq_zero_iff.mp (Nat.eq_zero_of_add_eq_zero hdue).1

/-- Where nothing is ahead and nothing is left behind the queue is empty. -/
theorem waiting_of_rewind (hqueued : Queued t ahead behind) (hnone : t.nextInput = 0)
    (hbehind : ¬ LeftBehind t) : waiting t = [] := by
  have hindex : t.ii.toNat < t.reach := Nat.lt_of_le_of_lt (Nat.le_add_right _ _) hqueued.ahead_lt
  rw [Terminal.nextInput, toInt_of_lt_reach hindex] at hnone
  obtain ⟨rfl, -⟩ := Stored.rewind hqueued hnone
  rw [waiting_eq hqueued, List.append_nil]
  have hle := hqueued.behind_le
  have hnonblank := hqueued.nonblank
  cases behind with
  | nil => rfl
  | cons first rest =>
      rw [List.length_cons] at hle
      refine absurd ⟨0, by omega, ?_⟩ hbehind
      rw [show t.cells .inBuffer (0 : ℕ) = first from hqueued.cell_behind 0 (by omega)]
      exact hnonblank first List.mem_cons_self

theorem due_handler (hqueued : Queued t ahead behind) (hhandler : t.handler.result = some t') :
    due t' ≤ due t - 1 := by
  obtain ⟨ahead', behind', hqueued', htaken⟩ := queued_handler hqueued hhandler
  have hqueue := (handler_drains hhandler).1.queue
  have hindex : t.ii.toNat < t.reach := Nat.lt_of_le_of_lt (Nat.le_add_right _ _) hqueued.ahead_lt
  have hint := toInt_of_lt_reach hindex
  have hbound : t.reach ≤ 2 ^ 31 := Nat.min_le_right _ _
  have hlength := congrArg List.length htaken
  rw [List.length_append, List.length_append, List.length_append] at hlength
  unfold due
  rw [waiting_eq hqueued', List.length_append]
  by_cases hnone : t.nextInput = 0
  · rw [drain, if_pos (show t.cells .inBuffer t.ii.toInt = 0 from hnone), Prod.mk.injEq] at hqueue
    rw [if_pos hnone, Option.toList_none, List.length_nil] at hlength
    have hahead : ¬ LeftBehind t' := by
      rintro ⟨position, hposition, -⟩
      rw [hqueue.2] at hposition
      exact Nat.not_lt_zero _ hposition
    rw [if_neg hahead]
    by_cases hbehind : LeftBehind t
    · rw [if_pos hbehind, waiting_eq hqueued, List.length_append]
      omega
    · have hempty := waiting_of_rewind hqueued hnone hbehind
      rw [waiting_eq hqueued] at hempty
      have hnil := congrArg List.length hempty
      rw [List.length_append, List.length_nil] at hnil
      omega
  · rw [drain, if_neg (show t.cells .inBuffer t.ii.toInt ≠ 0 from hnone), Prod.mk.injEq, hint]
      at hqueue
    rw [if_neg hnone, Option.toList_some, List.length_singleton] at hlength
    have hnext : (t.ii + 1).toNat = t.ii.toNat + 1 := by
      rw [BitVec.toNat_add, show (1 : Word32).toNat = 1 from rfl]
      omega
    have hsame : LeftBehind t' ↔ LeftBehind t := by
      unfold LeftBehind
      rw [hqueue.1, hqueue.2, hnext]
      constructor
      · rintro ⟨position, hposition, hheld⟩
        by_cases hlast : position = t.ii.toNat
        · rw [hlast, Function.update_self] at hheld
          exact absurd rfl hheld
        · rw [Function.update_of_ne (by omega)] at hheld
          exact ⟨position, by omega, hheld⟩
      · rintro ⟨position, hposition, hheld⟩
        exact ⟨position, by omega, by rwa [Function.update_of_ne (by omega)]⟩
    simp only [hsame]
    rw [waiting_eq hqueued, List.length_append]
    split_ifs <;> omega

end RedX.Delivery
