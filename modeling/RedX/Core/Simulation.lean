import RedX.Core.PartialRun

/-!
# Forward simulation

An abstract machine may leave a result open, so its steps are a relation.  Where every
step of a partial step function that meets a condition is matched by a step of the
abstract machine, so is every run whose steps all meet it.

A coarser machine takes any number of steps for one of the finer machine's: `labels` are
the steps that a run shows, and a run of the finer machine is one of the coarser machine
under its labels.  Labels also count what a run takes in and gives out.
-/

namespace RedX.Simulation

open RedX.PartialRun

variable {σ τ ε : Type*} {step : σ → ε → Option σ} {cond : σ → ε → Prop}
  {abstract : τ → ε → τ → Prop} {related : σ → τ → Prop} {state state' : σ} {model : τ}
  {events : List ε}

/-- The runs of a machine whose steps are a relation. -/
inductive Runs (abstract : τ → ε → τ → Prop) : τ → List ε → τ → Prop
  | nil (model : τ) : Runs abstract model [] model
  | cons {model next final : τ} {event : ε} {events : List ε}
      (hstep : abstract model event next) (hrest : Runs abstract next events final) :
      Runs abstract model (event :: events) final

/-- Steps that meet the condition are matched by the abstract machine. -/
def Simulates (step : σ → ε → Option σ) (cond : σ → ε → Prop) (abstract : τ → ε → τ → Prop)
    (related : σ → τ → Prop) : Prop :=
  ∀ state model event next, related state model → cond state event →
    step state event = some next → ∃ model', abstract model event model' ∧ related next model'

theorem Simulates.run (hsimulates : Simulates step cond abstract related)
    (hrelated : related state model) (hmeets : Meets step cond state events)
    (hrun : run step state events = some state') :
    ∃ model', Runs abstract model events model' ∧ related state' model' := by
  induction events generalizing state model with
  | nil =>
      cases hrun
      exact ⟨model, .nil model, hrelated⟩
  | cons event events ih =>
      rw [run_cons, Option.bind_eq_some_iff] at hrun
      obtain ⟨next, hstep, hrun⟩ := hrun
      obtain ⟨model', habstract, hnext⟩ :=
        hsimulates state model event next hrelated hmeets.1 hstep
      obtain ⟨final, hruns, hfinal⟩ := ih hnext (hmeets.2 next hstep) hrun
      exact ⟨final, .cons habstract hruns, hfinal⟩

/-! ## What a run shows -/

variable {υ ω α : Type*} {coarse : υ → ω → Option υ} {label : σ → ε → List ω}

/-- What the steps of a run show. -/
def labels (step : σ → ε → Option σ) (label : σ → ε → List ω) (state : σ) : List ε → List ω
  | [] => []
  | event :: events =>
      label state event ++ (step state event).elim [] fun next => labels step label next events

theorem labels_cons {event : ε} {next : σ} (hstep : step state event = some next) :
    labels step label state (event :: events) =
      label state event ++ labels step label next events := by
  rw [labels, hstep]
  rfl

/-- What the events alone show does not depend on the states. -/
theorem labels_event {show' : ε → List ω} (hrun : run step state events = some state') :
    labels step (fun _ => show') state events = events.flatMap show' := by
  induction events generalizing state with
  | nil => rfl
  | cons event events ih =>
      rw [run_cons, Option.bind_eq_some_iff] at hrun
      obtain ⟨next, hstep, hrun⟩ := hrun
      rw [labels_cons hstep, List.flatMap_cons, ih hrun]

theorem filterMap_labels (select : ω → Option α) (hrun : run step state events = some state') :
    (labels step label state events).filterMap select =
      labels step (fun state event => (label state event).filterMap select) state events := by
  induction events generalizing state with
  | nil => rfl
  | cons event events ih =>
      rw [run_cons, Option.bind_eq_some_iff] at hrun
      obtain ⟨next, hstep, hrun⟩ := hrun
      rw [labels_cons hstep, labels_cons hstep, List.filterMap_append, ih hrun]

/-- A run is a run of the coarser machine under its labels. -/
theorem run_labels (view : σ → υ)
    (hlabel : ∀ state event next, step state event = some next →
      run coarse (view state) (label state event) = some (view next))
    (hrun : run step state events = some state') :
    run coarse (view state) (labels step label state events) = some (view state') := by
  induction events generalizing state with
  | nil =>
      cases hrun
      rfl
  | cons event events ih =>
      rw [run_cons, Option.bind_eq_some_iff] at hrun
      obtain ⟨next, hstep, hrun⟩ := hrun
      rw [labels_cons hstep, run_append, hlabel state event next hstep, Option.bind_some]
      exact ih hrun

/-- What is stored and what comes in is what goes out and what is still stored, in order. -/
theorem labels_balance (Inv : σ → Prop) {incoming outgoing : σ → ε → List α}
    (stored : σ → List α)
    (hinv : ∀ state, ∀ event ∈ events, ∀ next, Inv state → step state event = some next → Inv next)
    (hstep : ∀ state, ∀ event ∈ events, ∀ next, Inv state → step state event = some next →
      stored state ++ incoming state event = outgoing state event ++ stored next)
    (hinit : Inv state) (hrun : run step state events = some state') :
    stored state ++ labels step incoming state events =
      labels step outgoing state events ++ stored state' := by
  induction events generalizing state with
  | nil =>
      cases hrun
      exact List.append_nil _
  | cons event events ih =>
      rw [run_cons, Option.bind_eq_some_iff] at hrun
      obtain ⟨next, hfirst, hrun⟩ := hrun
      have hhead := hstep state event List.mem_cons_self next hinit hfirst
      have hrest := ih
        (fun state later hlater => hinv state later (List.mem_cons_of_mem _ hlater))
        (fun state later hlater => hstep state later (List.mem_cons_of_mem _ hlater))
        (hinv state event List.mem_cons_self next hinit hfirst) hrun
      rw [labels_cons hfirst, labels_cons hfirst, ← List.append_assoc, hhead, List.append_assoc,
        hrest, List.append_assoc]

theorem labels_eq_nil (Inv : σ → Prop)
    (hinv : ∀ state, ∀ event ∈ events, ∀ next, Inv state → step state event = some next → Inv next)
    (hnil : ∀ state event, Inv state → label state event = [])
    (hinit : Inv state) (hrun : run step state events = some state') :
    labels step label state events = [] := by
  induction events generalizing state with
  | nil => rfl
  | cons event events ih =>
      rw [run_cons, Option.bind_eq_some_iff] at hrun
      obtain ⟨next, hfirst, hrun⟩ := hrun
      rw [labels_cons hfirst, hnil state event hinit, List.nil_append]
      exact ih (fun state later hlater => hinv state later (List.mem_cons_of_mem _ hlater))
        (hinv state event List.mem_cons_self next hinit hfirst) hrun

end RedX.Simulation
