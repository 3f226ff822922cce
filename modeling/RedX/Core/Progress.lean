import RedX.Core.PartialRun

/-!
# Progress by helpful events

Every state has one event that helps: it lowers a measure, no other event raises the
measure, and an event that leaves it as it is leaves the helpful event the same.  Then the
measure falls in every round of events in which each helpful event comes, in any order and
with any others between them.
-/

namespace RedX.Progress

open RedX.PartialRun

variable {σ ε : Type*} {step : σ → ε → Option σ} {quiet : ε → Prop} {Inv : σ → Prop}
  {measure : σ → ℕ} {helpful : σ → ε} {state state' : σ} {events : List ε}

structure Helps (step : σ → ε → Option σ) (quiet : ε → Prop) (Inv : σ → Prop)
    (measure : σ → ℕ) (helpful : σ → ε) : Prop where
  inv : ∀ {state event next}, Inv state → quiet event → step state event = some next → Inv next
  le : ∀ {state event next}, Inv state → quiet event → step state event = some next →
    measure next ≤ measure state
  lowers : ∀ {state next}, Inv state → 0 < measure state →
    step state (helpful state) = some next → measure next < measure state
  waits : ∀ {state event next}, Inv state → quiet event → step state event = some next →
    measure next = measure state → helpful next = helpful state

variable {rounds : List (List ε)}

theorem Helps.run_inv (hhelps : Helps step quiet Inv measure helpful) (hinv : Inv state)
    (hquiet : ∀ event ∈ events, quiet event) (hrun : run step state events = some state') :
    Inv state' :=
  run_invariant Inv hinv
    (fun _ event hevent _ hinv hstep => hhelps.inv hinv (hquiet event hevent) hstep) hrun

theorem Helps.run_le (hhelps : Helps step quiet Inv measure helpful) (hinv : Inv state)
    (hquiet : ∀ event ∈ events, quiet event) (hrun : run step state events = some state') :
    measure state' ≤ measure state := by
  induction events generalizing state with
  | nil =>
      cases hrun
      exact Nat.le_refl _
  | cons event events ih =>
      rw [run_cons, Option.bind_eq_some_iff] at hrun
      obtain ⟨next, hstep, hrun⟩ := hrun
      rw [List.forall_mem_cons] at hquiet
      exact Nat.le_trans (ih (hhelps.inv hinv hquiet.1 hstep) hquiet.2 hrun)
        (hhelps.le hinv hquiet.1 hstep)

/-- By induction on the events until the measure has fallen; until then the same event
helps. -/
theorem Helps.round (hhelps : Helps step quiet Inv measure helpful) (hinv : Inv state)
    (hquiet : ∀ event ∈ events, quiet event) (hhelpful : helpful state ∈ events)
    (hpos : 0 < measure state) (hrun : run step state events = some state') :
    measure state' < measure state := by
  induction events generalizing state with
  | nil => cases hhelpful
  | cons event events ih =>
      rw [run_cons, Option.bind_eq_some_iff] at hrun
      obtain ⟨next, hstep, hrun⟩ := hrun
      rw [List.forall_mem_cons] at hquiet
      have hnext := hhelps.inv hinv hquiet.1 hstep
      rcases Nat.lt_or_eq_of_le (hhelps.le hinv hquiet.1 hstep) with hless | hsame
      · exact Nat.lt_of_le_of_lt (hhelps.run_le hnext hquiet.2 hrun) hless
      · have hkept := hhelps.waits hinv hquiet.1 hstep hsame
        rcases List.mem_cons.mp hhelpful with hfirst | hlater
        · rw [← hfirst] at hstep
          exact absurd hsame (Nat.ne_of_lt (hhelps.lowers hinv hpos hstep))
        · rw [← hsame]
          exact ih hnext hquiet.2 (hkept ▸ hlater) (hsame ▸ hpos) hrun

/-- As many rounds as the measure bring it to zero. -/
theorem Helps.all_rounds (hhelps : Helps step quiet Inv measure helpful) (hinv : Inv state)
    (hquiet : ∀ round ∈ rounds, ∀ event ∈ round, quiet event)
    (hhelpful : ∀ round ∈ rounds, ∀ state, helpful state ∈ round)
    (hlength : measure state ≤ rounds.length)
    (hrun : run step state rounds.flatten = some state') : measure state' = 0 := by
  induction rounds generalizing state with
  | nil =>
      cases hrun
      exact Nat.le_zero.mp hlength
  | cons round rounds ih =>
      rw [List.flatten_cons, run_append, Option.bind_eq_some_iff] at hrun
      obtain ⟨next, hround, hrun⟩ := hrun
      rw [List.forall_mem_cons] at hquiet hhelpful
      rw [List.length_cons] at hlength
      refine ih (hhelps.run_inv hinv hquiet.1 hround) hquiet.2 hhelpful.2 ?_ hrun
      rcases Nat.eq_zero_or_pos (measure state) with hzero | hpos
      · have hle := hhelps.run_le hinv hquiet.1 hround
        omega
      · have hless := hhelps.round hinv hquiet.1 (hhelpful.1 state) hpos hround
        omega

end RedX.Progress
