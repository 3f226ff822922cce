import Mathlib.Tactic.Common

/-!
# Programs that read and write ports

A `Program` is a tree of port accesses whose continuation may depend on what was read.
`Talks` tells which conversations it can have, whatever the devices answer; a `Device`
answers from a state of its own, and `run` is the program against it.  The conversation
that a run has is one that the program can have, so what holds of all conversations holds
of every run.  `poll` is the bounded wait for a status.
-/

namespace RedX.PortProgram

/-- A program of port accesses that ends with a value. -/
inductive Program (π β α : Type) where
  | done (value : α)
  | input (port : π) (next : β → Program π β α)
  | output (port : π) (byte : β) (next : Program π β α)

/-- One access and the byte that was read or written. -/
inductive Exchange (π β : Type) where
  | input (port : π) (byte : β)
  | output (port : π) (byte : β)

/-- What a device answers to a read, and its state after an access. -/
structure Device (σ π β : Type) where
  input : σ → π → β × σ
  output : σ → π → β → σ

variable {σ π β α γ : Type}

def Program.andThen : Program π β α → (α → Program π β γ) → Program π β γ
  | .done value, next => next value
  | .input port rest, next => .input port fun byte => (rest byte).andThen next
  | .output port byte rest, next => .output port byte (rest.andThen next)

instance : Monad (Program π β) where
  pure := .done
  bind := Program.andThen

def readPort (port : π) : Program π β β := .input port .done

def writePort (port : π) (byte : β) : Program π β Unit := .output port byte (.done ())

/-- The conversations that a program can have, and the value that each ends with. -/
def Program.Talks : Program π β α → List (Exchange π β) → α → Prop
  | .done value, talk, result => talk = [] ∧ result = value
  | .input port next, talk, result =>
      ∃ byte rest, talk = .input port byte :: rest ∧ (next byte).Talks rest result
  | .output port byte next, talk, result =>
      ∃ rest, talk = .output port byte :: rest ∧ next.Talks rest result

def Program.run (device : Device σ π β) : Program π β α → σ → α × σ
  | .done value, state => (value, state)
  | .input port next, state =>
      (next (device.input state port).1).run device (device.input state port).2
  | .output port byte next, state => next.run device (device.output state port byte)

/-- The conversation of a run. -/
def Program.talk (device : Device σ π β) : Program π β α → σ → List (Exchange π β)
  | .done _, _ => []
  | .input port next, state =>
      .input port (device.input state port).1 ::
        (next (device.input state port).1).talk device (device.input state port).2
  | .output port byte next, state =>
      .output port byte :: next.talk device (device.output state port byte)

/-! ## Rules for the monad -/

variable {talk : List (Exchange π β)}

@[simp]
theorem talks_pure {value result : α} :
    (pure value : Program π β α).Talks talk result ↔ talk = [] ∧ result = value := Iff.rfl

@[simp]
theorem talks_readPort {port : π} {byte : β} :
    (readPort port : Program π β β).Talks talk byte ↔ talk = [.input port byte] := by
  constructor
  · rintro ⟨read, rest, rfl, rfl, rfl⟩
    rfl
  · rintro rfl
    exact ⟨byte, [], rfl, rfl, rfl⟩

@[simp]
theorem talks_writePort {port : π} {byte : β} {result : Unit} :
    (writePort port byte : Program π β Unit).Talks talk result ↔
      talk = [.output port byte] := by
  constructor
  · rintro ⟨rest, rfl, rfl, -⟩
    rfl
  · rintro rfl
    exact ⟨[], rfl, rfl, rfl⟩

theorem talks_bind (first : Program π β α) (next : α → Program π β γ) {result : γ} :
    (first >>= next).Talks talk result ↔
      ∃ early late value, talk = early ++ late ∧ first.Talks early value ∧
        (next value).Talks late result := by
  change (first.andThen next).Talks talk result ↔ _
  induction first generalizing talk with
  | done value =>
      constructor
      · exact fun hnext => ⟨[], talk, value, rfl, ⟨rfl, rfl⟩, hnext⟩
      · rintro ⟨early, late, value, rfl, ⟨rfl, rfl⟩, hnext⟩
        exact hnext
  | input port rest ih =>
      constructor
      · rintro ⟨byte, tail, rfl, htail⟩
        obtain ⟨early, late, value, rfl, hearly, hlate⟩ := (ih byte).mp htail
        exact ⟨.input port byte :: early, late, value, rfl, ⟨byte, early, rfl, hearly⟩, hlate⟩
      · rintro ⟨early, late, value, rfl, ⟨byte, tail, rfl, htail⟩, hlate⟩
        exact ⟨byte, tail ++ late, rfl, (ih byte).mpr ⟨tail, late, value, rfl, htail, hlate⟩⟩
  | output port byte rest ih =>
      constructor
      · rintro ⟨tail, rfl, htail⟩
        obtain ⟨early, late, value, rfl, hearly, hlate⟩ := ih.mp htail
        exact ⟨.output port byte :: early, late, value, rfl, ⟨early, rfl, hearly⟩, hlate⟩
      · rintro ⟨early, late, value, rfl, ⟨tail, rfl, htail⟩, hlate⟩
        exact ⟨tail ++ late, rfl, ih.mpr ⟨tail, late, value, rfl, htail, hlate⟩⟩

/-- Against a device a program has one of its conversations. -/
theorem talks_talk (program : Program π β α) (device : Device σ π β) (state : σ) :
    program.Talks (program.talk device state) (program.run device state).1 := by
  induction program generalizing state with
  | done value => exact ⟨rfl, rfl⟩
  | input port next ih => exact ⟨_, _, rfl, ih _ _⟩
  | output port byte next ih => exact ⟨_, rfl, ih _⟩

/-! ## Waiting for a status -/

/-- `while (tries--) if (ready(port)) return;` -/
def poll (port : π) (ready : β → Prop) [DecidablePred ready] : ℕ → Program π β Unit
  | 0 => pure ()
  | tries + 1 => do
      let status ← readPort port
      if ready status then pure () else poll port ready tries

/-- The reads of a wait: all of them fruitless, or the last one and no other ready. -/
def Waits (port : π) (ready : β → Prop) (tries : ℕ) (talk : List (Exchange π β)) : Prop :=
  ∃ fruitless : List β, (∀ status ∈ fruitless, ¬ ready status) ∧
    ((fruitless.length = tries ∧ talk = fruitless.map (.input port)) ∨
      fruitless.length < tries ∧
        ∃ last, ready last ∧ talk = (fruitless ++ [last]).map (.input port))

variable {port : π} {ready : β → Prop} {tries : ℕ}

theorem waits_zero : Waits port ready 0 talk ↔ talk = [] := by
  constructor
  · rintro ⟨fruitless, -, ⟨hlength, rfl⟩ | ⟨hlength, -⟩⟩
    · rw [List.length_eq_zero_iff.mp hlength, List.map_nil]
    · exact absurd hlength (Nat.not_lt_zero _)
  · rintro rfl
    exact ⟨[], by simp, .inl ⟨rfl, rfl⟩⟩

theorem waits_succ : Waits port ready (tries + 1) talk ↔
    ∃ status rest, talk = .input port status :: rest ∧
      (ready status ∧ rest = [] ∨ ¬ ready status ∧ Waits port ready tries rest) := by
  constructor
  · rintro ⟨fruitless, hnot, ⟨hlength, rfl⟩ | ⟨hlength, last, hlast, rfl⟩⟩
    · cases fruitless with
      | nil => simp at hlength
      | cons status fruitless =>
          rw [List.forall_mem_cons] at hnot
          exact ⟨status, _, rfl, .inr ⟨hnot.1, fruitless, hnot.2, .inl ⟨by simpa using hlength,
            rfl⟩⟩⟩
    · cases fruitless with
      | nil => exact ⟨last, [], rfl, .inl ⟨hlast, rfl⟩⟩
      | cons status fruitless =>
          rw [List.forall_mem_cons] at hnot
          exact ⟨status, _, rfl, .inr ⟨hnot.1, fruitless, hnot.2, .inr ⟨by simpa using hlength,
            last, hlast, rfl⟩⟩⟩
  · rintro ⟨status, rest, rfl, ⟨hready, rfl⟩ | ⟨hnot, fruitless, hall, hrest⟩⟩
    · exact ⟨[], by simp, .inr ⟨Nat.succ_pos _, status, hready, rfl⟩⟩
    · refine ⟨status :: fruitless, List.forall_mem_cons.mpr ⟨hnot, hall⟩, ?_⟩
      rcases hrest with ⟨hlength, rfl⟩ | ⟨hlength, last, hlast, rfl⟩
      · exact .inl ⟨by rw [List.length_cons, hlength], rfl⟩
      · exact .inr ⟨by rw [List.length_cons]; omega, last, hlast, rfl⟩

/-- The conversations of a wait, by induction on the reads that are left. -/
theorem talks_poll [DecidablePred ready] {result : Unit} :
    (poll port ready tries).Talks talk result ↔ Waits port ready tries talk := by
  induction tries generalizing talk with
  | zero => rw [poll, waits_zero, talks_pure, and_iff_left rfl]
  | succ tries ih =>
      rw [poll, talks_bind, waits_succ]
      constructor
      · rintro ⟨early, late, status, rfl, hearly, hlate⟩
        rw [talks_readPort] at hearly
        subst hearly
        refine ⟨status, late, rfl, ?_⟩
        by_cases hready : ready status
        · rw [if_pos hready] at hlate
          exact .inl ⟨hready, hlate.1⟩
        · rw [if_neg hready] at hlate
          exact .inr ⟨hready, ih.mp hlate⟩
      · rintro ⟨status, rest, rfl, hcases⟩
        refine ⟨[.input port status], rest, status, rfl, talks_readPort.mpr rfl, ?_⟩
        rcases hcases with ⟨hready, rfl⟩ | ⟨hready, hwaits⟩
        · rw [if_pos hready]
          exact ⟨rfl, rfl⟩
        · rw [if_neg hready]
          exact ih.mpr hwaits

theorem Waits.length_le (hwaits : Waits port ready tries talk) : talk.length ≤ tries := by
  obtain ⟨fruitless, -, ⟨hlength, rfl⟩ | ⟨hlength, last, -, rfl⟩⟩ := hwaits
  · exact Nat.le_of_eq ((List.length_map _).trans hlength)
  · rw [List.length_map, List.length_append, List.length_singleton]
    exact hlength

/-! ## Conversations in parts -/

/-- A conversation that has its parts one after the other. -/
def InTurn : List (List (Exchange π β) → Prop) → List (Exchange π β) → Prop
  | [], talk => talk = []
  | part :: parts, talk => ∃ early late, talk = early ++ late ∧ part early ∧ InTurn parts late

def speaks (exchange : Exchange π β) (talk : List (Exchange π β)) : Prop := talk = [exchange]

theorem length_speaks {exchange : Exchange π β} (talk : List (Exchange π β))
    (hspeaks : speaks exchange talk) : talk.length ≤ 1 :=
  Nat.le_of_eq (congrArg List.length hspeaks)

variable {ι : Type} {part : List (Exchange π β) → Prop}

theorem talks_pure_turn {result : Unit} :
    (pure () : Program π β Unit).Talks talk result ↔ InTurn [] talk := and_iff_left rfl

/-- A program that returns nothing is a part of its own. -/
theorem talks_turn {first : Program π β Unit} {next : Program π β γ} {result : γ}
    {parts : ι → List (List (Exchange π β) → Prop)}
    (hfirst : ∀ talk, first.Talks talk () ↔ part talk)
    (hnext : ∀ talk, next.Talks talk result ↔ ∃ index, InTurn (parts index) talk) :
    (first >>= fun _ => next).Talks talk result ↔ ∃ index, InTurn (part :: parts index) talk := by
  rw [talks_bind]
  constructor
  · rintro ⟨early, late, ⟨⟩, rfl, hearly, hlate⟩
    obtain ⟨index, hlate⟩ := (hnext late).mp hlate
    exact ⟨index, early, late, rfl, (hfirst early).mp hearly, hlate⟩
  · rintro ⟨index, early, late, rfl, hearly, hlate⟩
    exact ⟨early, late, (), rfl, (hfirst early).mpr hearly, (hnext late).mpr ⟨index, hlate⟩⟩

/-- So is one that returns a value, for each value. -/
theorem talks_turn_value {first : Program π β α} {next : α → Program π β γ} {result : γ}
    (part : α → List (Exchange π β) → Prop) (parts : α → ι → List (List (Exchange π β) → Prop))
    (hfirst : ∀ talk value, first.Talks talk value ↔ part value talk)
    (hnext : ∀ value talk, (next value).Talks talk result ↔
      ∃ index, InTurn (parts value index) talk) :
    (first >>= next).Talks talk result ↔
      ∃ index : α × ι, InTurn (part index.1 :: parts index.1 index.2) talk := by
  rw [talks_bind]
  constructor
  · rintro ⟨early, late, value, rfl, hearly, hlate⟩
    obtain ⟨index, hlate⟩ := (hnext value late).mp hlate
    exact ⟨(value, index), early, late, rfl, (hfirst early value).mp hearly, hlate⟩
  · rintro ⟨⟨value, index⟩, early, late, rfl, hearly, hlate⟩
    exact ⟨early, late, value, rfl, (hfirst early value).mpr hearly,
      (hnext value late).mpr ⟨index, hlate⟩⟩

/-- The parts bound the number of accesses. -/
theorem InTurn.length_le {parts : List (List (Exchange π β) → Prop)} (bounds : List ℕ)
    (hbounds : List.Forall₂ (fun part bound => ∀ talk, part talk → talk.length ≤ bound) parts
      bounds) (hturn : InTurn parts talk) :
    talk.length ≤ bounds.foldr (· + ·) 0 := by
  induction hbounds generalizing talk with
  | nil =>
      rw [show talk = [] from hturn]
      exact Nat.le_refl 0
  | cons hpart _ ih =>
      obtain ⟨early, late, rfl, hearly, hlate⟩ := hturn
      rw [List.length_append, List.foldr_cons]
      exact Nat.add_le_add (hpart early hearly) (ih hlate)

end RedX.PortProgram
