import Mathlib.Tactic.Common

/-!
# Runs of a partial step function

A system whose step may fail (a panic, a loop that never ends) is a function
`step : σ → ε → Option σ`.  A run folds it over a list of events; the two
invariant rules carry a property along every run that does not fail.  `Meets` says of
a run that all its steps are taken under a condition, `Throughout` that a property
holds in every state it reaches.
-/

namespace RedX.PartialRun

variable {σ ε : Type*} {step : σ → ε → Option σ}

def run (step : σ → ε → Option σ) (state : σ) : List ε → Option σ
  | [] => some state
  | event :: events => (step state event).bind fun next => run step next events

@[simp]
theorem run_nil (state : σ) : run step state [] = some state := rfl

@[simp]
theorem run_cons (state : σ) (event : ε) (events : List ε) :
    run step state (event :: events) =
      (step state event).bind fun next => run step next events := rfl

theorem run_append (state : σ) (left right : List ε) :
    run step state (left ++ right) =
      (run step state left).bind fun middle => run step middle right := by
  induction left generalizing state with
  | nil => rfl
  | cons event events ih =>
      cases hstep : step state event with
      | none => simp [hstep]
      | some next => simp [hstep, ih]

/-- Every step of the run that starts in `state` meets `cond`, a condition on the
state before the step and the event. -/
def Meets (step : σ → ε → Option σ) (cond : σ → ε → Prop) (state : σ) : List ε → Prop
  | [] => True
  | event :: events =>
      cond state event ∧ ∀ next, step state event = some next → Meets step cond next events

instance decidableMeets {cond : σ → ε → Prop} [∀ state event, Decidable (cond state event)] :
    ∀ state events, Decidable (Meets step cond state events)
  | _, [] => isTrue trivial
  | state, event :: events =>
      match hstep : step state event with
      | none => decidable_of_iff (cond state event)
          (by simp [Meets, hstep])
      | some next =>
          have : Decidable (Meets step cond next events) := decidableMeets next events
          decidable_of_iff (cond state event ∧ Meets step cond next events)
            (by simp [Meets, hstep])

theorem Meets.last {cond : σ → ε → Prop} {initial state : σ} {past : List ε} {event : ε}
    (hmeets : Meets step cond initial (past ++ [event]))
    (hrun : run step initial past = some state) : cond state event := by
  induction past generalizing initial with
  | nil =>
      cases hrun
      exact hmeets.1
  | cons first past ih =>
      rw [run_cons, Option.bind_eq_some_iff] at hrun
      obtain ⟨next, hstep, hrest⟩ := hrun
      exact ih (hmeets.2 next hstep) hrest

theorem Meets.imp {cond weaker : σ → ε → Prop} {initial : σ} {events : List ε}
    (himp : ∀ state event, cond state event → weaker state event)
    (hmeets : Meets step cond initial events) : Meets step weaker initial events := by
  induction events generalizing initial with
  | nil => trivial
  | cons event events ih =>
      exact ⟨himp initial event hmeets.1, fun next hstep => ih (hmeets.2 next hstep)⟩

/-- The first part of a run meets what the whole does. -/
theorem Meets.left {cond : σ → ε → Prop} {initial : σ} {past later : List ε}
    (hmeets : Meets step cond initial (past ++ later)) : Meets step cond initial past := by
  induction past generalizing initial with
  | nil => trivial
  | cons first past ih => exact ⟨hmeets.1, fun next hstep => ih (hmeets.2 next hstep)⟩

/-- So does the rest, from where the first part ends. -/
theorem Meets.right {cond : σ → ε → Prop} {initial state : σ} {past later : List ε}
    (hmeets : Meets step cond initial (past ++ later))
    (hrun : run step initial past = some state) : Meets step cond state later := by
  induction past generalizing initial with
  | nil =>
      cases hrun
      exact hmeets
  | cons first past ih =>
      rw [run_cons, Option.bind_eq_some_iff] at hrun
      obtain ⟨next, hstep, hrest⟩ := hrun
      exact ih (hmeets.2 next hstep) hrest

/-- `prop` holds in every state that the run reaches. -/
def Throughout (step : σ → ε → Option σ) (prop : σ → Prop) (state : σ) : List ε → Prop
  | [] => prop state
  | event :: events =>
      prop state ∧ ∀ next, step state event = some next → Throughout step prop next events

instance decidableThroughout {prop : σ → Prop} [DecidablePred prop] :
    ∀ state events, Decidable (Throughout step prop state events)
  | state, [] => decidable_of_iff (prop state) Iff.rfl
  | state, event :: events =>
      match hstep : step state event with
      | none => decidable_of_iff (prop state)
          (by simp [Throughout, hstep])
      | some next =>
          have : Decidable (Throughout step prop next events) := decidableThroughout next events
          decidable_of_iff (prop state ∧ Throughout step prop next events)
            (by simp [Throughout, hstep])

theorem Throughout.initial {prop : σ → Prop} {state : σ} {events : List ε}
    (hthroughout : Throughout step prop state events) : prop state := by
  cases events with
  | nil => exact hthroughout
  | cons event events => exact hthroughout.1

theorem Throughout.final {prop : σ → Prop} {state final : σ} {events : List ε}
    (hthroughout : Throughout step prop state events)
    (hrun : run step state events = some final) : prop final := by
  induction events generalizing state with
  | nil =>
      cases hrun
      exact hthroughout
  | cons event events ih =>
      rw [run_cons, Option.bind_eq_some_iff] at hrun
      obtain ⟨next, hstep, hrest⟩ := hrun
      exact ih (hthroughout.2 next hstep) hrest

theorem Throughout.imp {prop weaker : σ → Prop} (himp : ∀ state, prop state → weaker state)
    {state : σ} {events : List ε} (hthroughout : Throughout step prop state events) :
    Throughout step weaker state events := by
  induction events generalizing state with
  | nil => exact himp state hthroughout
  | cons event events ih =>
      exact ⟨himp state hthroughout.1, fun next hstep => ih (hthroughout.2 next hstep)⟩

/-- A property of every state may be assumed before every step. -/
theorem Throughout.meets {prop : σ → Prop} {cond : σ → ε → Prop} {state : σ} {events : List ε}
    (hthroughout : Throughout step prop state events) (hmeets : Meets step cond state events) :
    Meets step (fun state event => prop state ∧ cond state event) state events := by
  induction events generalizing state with
  | nil => trivial
  | cons event events ih =>
      exact ⟨⟨hthroughout.1, hmeets.1⟩, fun next hstep =>
        ih (hthroughout.2 next hstep) (hmeets.2 next hstep)⟩

/-- An invariant of the steps that meet a condition, for the events of the run. -/
theorem throughout_of_meets {cond : σ → ε → Prop} {initial : σ} {events : List ε}
    (Inv : σ → Prop) (hinit : Inv initial)
    (hstep : ∀ state, ∀ event ∈ events, ∀ next, Inv state → cond state event →
      step state event = some next → Inv next)
    (hmeets : Meets step cond initial events) : Throughout step Inv initial events := by
  induction events generalizing initial with
  | nil => exact hinit
  | cons event events ih =>
      refine ⟨hinit, fun next hfirst => ?_⟩
      exact ih (hstep initial event List.mem_cons_self next hinit hmeets.1 hfirst)
        (fun state later hlater => hstep state later (List.mem_cons_of_mem _ hlater))
        (hmeets.2 next hfirst)

/-- Invariant rule for the runs whose steps all meet a condition. -/
theorem run_meets_invariant {cond : σ → ε → Prop} {initial final : σ} {events : List ε}
    (Inv : σ → Prop) (hinit : Inv initial)
    (hstep : ∀ state event next, Inv state → cond state event → step state event = some next →
      Inv next)
    (hmeets : Meets step cond initial events)
    (hrun : run step initial events = some final) : Inv final :=
  (throughout_of_meets Inv hinit (fun state event _ => hstep state event) hmeets).final hrun

/-- Progress rule: where a step that meets the condition does not fail and keeps the invariant,
neither do the runs whose steps all meet it. -/
theorem run_returns {cond : σ → ε → Prop} {initial : σ} {events : List ε} (Inv : σ → Prop)
    (hinit : Inv initial)
    (hstep : ∀ state event, Inv state → cond state event →
      ∃ next, step state event = some next ∧ Inv next)
    (hmeets : Meets step cond initial events) :
    ∃ final, run step initial events = some final ∧ Inv final := by
  induction events generalizing initial with
  | nil => exact ⟨initial, rfl, hinit⟩
  | cons event events ih =>
      obtain ⟨next, hfirst, hnext⟩ := hstep initial event hinit hmeets.1
      obtain ⟨final, hrest, hfinal⟩ := ih hnext (hmeets.2 next hfirst)
      refine ⟨final, ?_, hfinal⟩
      rw [run_cons, hfirst]
      exact hrest

/-- Where a step keeps a property exactly under a condition, the property holds
throughout the runs that start with it and whose steps all meet the condition.  A step
that fails reaches no state, so it has to meet the condition by itself. -/
theorem throughout_iff_meets {prop : σ → Prop} {cond : σ → ε → Prop} {initial : σ}
    {events : List ε} (Inv : σ → Prop) (hinit : prop initial → Inv initial)
    (hnone : ∀ past event state, past ++ [event] <+: events →
      run step initial past = some state → step state event = none → cond state event)
    (hstep : ∀ state event next, Inv state → prop state → step state event = some next →
      (prop next ↔ cond state event) ∧ (prop next → Inv next)) :
    Throughout step prop initial events ↔ prop initial ∧ Meets step cond initial events := by
  induction events generalizing initial with
  | nil => exact ⟨fun hprop => ⟨hprop, trivial⟩, And.left⟩
  | cons event events ih =>
      apply and_congr_right
      intro hprop
      have hinv := hinit hprop
      have hlater : ∀ next, step initial event = some next → ∀ past later state,
          past ++ [later] <+: events → run step next past = some state →
            step state later = none → cond state later := by
        intro next hnext past later state hpast hrun
        apply hnone (event :: past) later state ((List.cons_prefix_cons).mpr ⟨rfl, hpast⟩)
        rw [run_cons, hnext]
        exact hrun
      constructor
      · intro hrest
        refine ⟨?_, fun next hnext => ?_⟩
        · cases hnext : step initial event with
          | none => exact hnone [] event initial (List.prefix_append [event] events) rfl hnext
          | some next =>
              exact (hstep initial event next hinv hprop hnext).1.mp (hrest next hnext).initial
        · have hafter := (hstep initial event next hinv hprop hnext).2
          exact ((ih hafter (hlater next hnext)).mp (hrest next hnext)).2
      · rintro ⟨hcond, hmeets⟩ next hnext
        obtain ⟨hiff, hafter⟩ := hstep initial event next hinv hprop hnext
        exact (ih hafter (hlater next hnext)).mpr ⟨hiff.mpr hcond, hmeets next hnext⟩

/-- In a run that does not fail no step of it fails. -/
theorem run_ne_none_of_step {initial final state : σ} {past events : List ε} {event : ε}
    (hrun : run step initial events = some final) (hpast : past ++ [event] <+: events)
    (hstate : run step initial past = some state) : step state event ≠ none := by
  intro hnone
  obtain ⟨later, rfl⟩ := hpast
  rw [List.append_assoc, run_append, hstate, Option.bind_some, List.singleton_append, run_cons,
    hnone] at hrun
  cases hrun

/-- Two conditions that agree on the states of an invariant are met by the same runs. -/
theorem meets_congr {left right : σ → ε → Prop} {initial : σ} {events : List ε}
    (Inv : σ → Prop) (hinit : Inv initial)
    (hstep : ∀ state event next, Inv state → step state event = some next → Inv next)
    (hiff : ∀ state event, Inv state → (left state event ↔ right state event)) :
    Meets step left initial events ↔ Meets step right initial events := by
  induction events generalizing initial with
  | nil => exact Iff.rfl
  | cons event events ih =>
      apply and_congr (hiff initial event hinit)
      apply forall₂_congr
      intro next hnext
      exact ih (hstep initial event next hinit hnext)

/-- Among the runs whose steps all meet a third condition it is enough that the two agree
there and that the steps under one of them keep the invariant. -/
theorem meets_iff {given left right : σ → ε → Prop} {initial : σ} {events : List ε}
    (Inv : σ → Prop) (hinit : Inv initial)
    (hiff : ∀ state event, Inv state → given state event → (left state event ↔ right state event))
    (hstep : ∀ state event next, Inv state → given state event → right state event →
      step state event = some next → Inv next)
    (hgiven : Meets step given initial events) :
    Meets step left initial events ↔ Meets step right initial events := by
  induction events generalizing initial with
  | nil => exact Iff.rfl
  | cons event events ih =>
      rw [Meets, Meets, hiff initial event hinit hgiven.1]
      apply and_congr_right
      intro hright
      apply forall₂_congr
      intro next hnext
      exact ih (hstep initial event next hinit hgiven.1 hright hnext) (hgiven.2 next hnext)

/-- Invariant rule: the steps taken may be restricted to the events of the run. -/
theorem run_invariant {initial final : σ} {events : List ε}
    (Inv : σ → Prop) (hinit : Inv initial)
    (hstep : ∀ state, ∀ event ∈ events, ∀ next, Inv state → step state event = some next →
      Inv next)
    (hrun : run step initial events = some final) : Inv final := by
  induction events generalizing initial with
  | nil =>
      cases hrun
      exact hinit
  | cons event events ih =>
      rw [run_cons, Option.bind_eq_some_iff] at hrun
      obtain ⟨next, hfirst, hrest⟩ := hrun
      exact ih (hstep initial event List.mem_cons_self next hinit hfirst)
        (fun state later hlater => hstep state later (List.mem_cons_of_mem _ hlater)) hrest

end RedX.PartialRun
