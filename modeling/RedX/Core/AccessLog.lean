import RedX.Core.CountedLoop

/-!
# Computations that log what they access

A `Logged ι α` is a computation with the list of the places it accesses and its
result, `none` when it never returns.  `Holds P Q` says that every access
satisfies `P` and the result, if there is one, satisfies `Q`.  `forInt` is the
C loop `for (int i = start; cond; i++) body` with a bound on its passes; its
three rules are an invariant, a sufficient condition to return and the accesses
that a run of passes cannot avoid.
-/

namespace RedX.AccessLog

open RedX.MachineWord
open RedX.CountedLoop

structure Logged (ι α : Type) where
  log : List ι
  result : Option α

variable {ι α β σ : Type} {P : ι → Prop} {Q : α → Prop} {R : β → Prop}

def Logged.andThen (first : Logged ι α) (next : α → Logged ι β) : Logged ι β :=
  match first.result with
  | none => ⟨first.log, none⟩
  | some value => ⟨first.log ++ (next value).log, (next value).result⟩

instance : Monad (Logged ι) where
  pure value := ⟨[], some value⟩
  bind := Logged.andThen

/-- The computation that never returns. -/
def hang : Logged ι α := ⟨[], none⟩

/-- The access to one place. -/
def access (place : ι) (value : α) : Logged ι α := ⟨[place], some value⟩

def Logged.All (P : ι → Prop) (computation : Logged ι α) : Prop :=
  ∀ place ∈ computation.log, P place

instance [DecidablePred P] (computation : Logged ι α) : Decidable (computation.All P) :=
  inferInstanceAs (Decidable (∀ place ∈ computation.log, P place))

def Logged.Holds (P : ι → Prop) (Q : α → Prop) (computation : Logged ι α) : Prop :=
  computation.All P ∧ ∀ value, computation.result = some value → Q value

def Logged.Returns (computation : Logged ι α) : Prop :=
  ∃ value, computation.result = some value

/-! ## Rules for the monad -/

@[simp]
theorem result_pure (value : α) : (pure value : Logged ι α).result = some value := rfl

@[simp]
theorem result_bind (first : Logged ι α) (next : α → Logged ι β) :
    (first >>= next).result = first.result.bind fun value => (next value).result := by
  change (first.andThen next).result = _
  unfold Logged.andThen
  cases first.result with
  | none => rfl
  | some value => rfl

theorem log_bind_of_result {first : Logged ι α} {value : α} (hfirst : first.result = some value)
    (next : α → Logged ι β) : (first >>= next).log = first.log ++ (next value).log := by
  change (first.andThen next).log = _
  rw [Logged.andThen, hfirst]

theorem bind_assoc {γ : Type} (first : Logged ι α) (second : α → Logged ι β)
    (third : β → Logged ι γ) :
    first >>= second >>= third = first >>= fun value => second value >>= third := by
  change (first.andThen second).andThen third = first.andThen fun value =>
    (second value).andThen third
  unfold Logged.andThen
  cases first.result with
  | none => rfl
  | some value => cases hsecond : (second value).result <;> simp [hsecond]

@[simp]
theorem result_access (place : ι) (value : α) : (access place value).result = some value := rfl

@[simp]
theorem all_pure (value : α) : (pure value : Logged ι α).All P := by
  intro place hplace
  cases hplace

@[simp]
theorem all_access (place : ι) (value : α) : (access place value).All P ↔ P place := by
  simp [Logged.All, access]

@[simp]
theorem all_bind (first : Logged ι α) (next : α → Logged ι β) :
    (first >>= next).All P ↔
      first.All P ∧ ∀ value, first.result = some value → (next value).All P := by
  change (first.andThen next).All P ↔ _
  unfold Logged.andThen Logged.All
  cases first.result with
  | none => simp
  | some value => simp [or_imp, forall_and]

theorem holds_pure {value : α} (hvalue : Q value) : (pure value : Logged ι α).Holds P Q :=
  ⟨all_pure value, fun _ hsame => Option.some.inj hsame ▸ hvalue⟩

theorem holds_hang : (hang : Logged ι α).Holds P Q :=
  ⟨fun _ hplace => absurd hplace List.not_mem_nil, fun _ hnone => nomatch hnone⟩

theorem holds_access {place : ι} {value : α} (hplace : P place) (hvalue : Q value) :
    (access place value).Holds P Q :=
  ⟨(all_access place value).mpr hplace, fun _ hsame => Option.some.inj hsame ▸ hvalue⟩

theorem holds_bind {first : Logged ι α} {next : α → Logged ι β} (hfirst : first.Holds P Q)
    (hnext : ∀ value, Q value → (next value).Holds P R) : (first >>= next).Holds P R := by
  refine ⟨(all_bind first next).mpr ⟨hfirst.1, fun value hvalue =>
    (hnext value (hfirst.2 value hvalue)).1⟩, fun final hfinal => ?_⟩
  rw [result_bind, Option.bind_eq_some_iff] at hfinal
  obtain ⟨value, hvalue, hlast⟩ := hfinal
  exact (hnext value (hfirst.2 value hvalue)).2 final hlast

theorem Logged.Holds.mono {Q' : α → Prop} {computation : Logged ι α}
    (hholds : computation.Holds P Q) (himp : ∀ value, Q value → Q' value) :
    computation.Holds P Q' :=
  ⟨hholds.1, fun value hvalue => himp value (hholds.2 value hvalue)⟩

theorem returns_pure (value : α) : (pure value : Logged ι α).Returns := ⟨value, rfl⟩

theorem returns_access (place : ι) (value : α) : (access place value).Returns := ⟨value, rfl⟩

theorem returns_bind {first : Logged ι α} {next : α → Logged ι β} (hfirst : first.Returns)
    (hnext : ∀ value, first.result = some value → (next value).Returns) :
    (first >>= next).Returns := by
  obtain ⟨value, hvalue⟩ := hfirst
  obtain ⟨final, hfinal⟩ := hnext value hvalue
  exact ⟨final, by rw [result_bind, hvalue, Option.bind_some, hfinal]⟩

/-- Every access satisfies `P`, and there is a result, which satisfies `Q`. -/
def Logged.Total (P : ι → Prop) (Q : α → Prop) (computation : Logged ι α) : Prop :=
  computation.All P ∧ ∃ value, computation.result = some value ∧ Q value

theorem Logged.Holds.total {computation : Logged ι α} (hholds : computation.Holds P Q)
    (hreturns : computation.Returns) : computation.Total P Q := by
  obtain ⟨value, hvalue⟩ := hreturns
  exact ⟨hholds.1, value, hvalue, hholds.2 value hvalue⟩

theorem Logged.Total.mono {Q' : α → Prop} {computation : Logged ι α}
    (htotal : computation.Total P Q) (himp : ∀ value, Q value → Q' value) :
    computation.Total P Q' := by
  obtain ⟨hall, value, hvalue, hQ⟩ := htotal
  exact ⟨hall, value, hvalue, himp value hQ⟩

/-- What holds of every result holds of the one that there is. -/
theorem Logged.Total.and {P' : ι → Prop} {Q' : α → Prop} {computation : Logged ι α}
    (htotal : computation.Total P Q) (hholds : computation.Holds P' Q') :
    computation.Total P fun value => Q value ∧ Q' value := by
  obtain ⟨hall, value, hvalue, hQ⟩ := htotal
  exact ⟨hall, value, hvalue, hQ, hholds.2 value hvalue⟩

theorem total_pure {value : α} (hvalue : Q value) : (pure value : Logged ι α).Total P Q :=
  (holds_pure hvalue).total (returns_pure value)

theorem total_access {place : ι} {value : α} (hplace : P place) (hvalue : Q value) :
    (access place value).Total P Q :=
  (holds_access hplace hvalue).total (returns_access place value)

theorem total_bind {first : Logged ι α} {next : α → Logged ι β} (hfirst : first.Total P Q)
    (hnext : ∀ value, Q value → (next value).Total P R) : (first >>= next).Total P R := by
  obtain ⟨hall, value, hvalue, hQ⟩ := hfirst
  obtain ⟨hafter, final, hfinal, hR⟩ := hnext value hQ
  refine ⟨(all_bind first next).mpr ⟨hall, fun other hother => ?_⟩, final, ?_, hR⟩
  · exact Option.some.inj (hvalue.symm.trans hother) ▸ hafter
  · rw [result_bind, hvalue, Option.bind_some, hfinal]

/-! ## Counted loops -/

/-- A counted loop with a logged body. -/
def forLogged (count : ℕ) (body : ℕ → σ → Logged ι σ) (state : σ) : Logged ι σ :=
  match count with
  | 0 => pure state
  | count + 1 => forLogged count body state >>= body count

/-- The accesses apart, it is the loop of what the body returns. -/
theorem forLogged_result {count : ℕ} {body : ℕ → σ → Logged ι σ} {next : ℕ → σ → σ}
    (hbody : ∀ index state, (body index state).result = some (next index state)) (state : σ) :
    (forLogged count body state).result = some (forLoop count next state) := by
  induction count with
  | zero => rfl
  | succ count ih => rw [forLogged, result_bind, ih, Option.bind_some, hbody, forLoop_succ]

theorem forLogged_all {count : ℕ} {body : ℕ → σ → Logged ι σ}
    (hbody : ∀ index < count, ∀ state, (body index state).All P) (state : σ) :
    (forLogged count body state).All P := by
  induction count with
  | zero => exact all_pure state
  | succ count ih =>
      rw [forLogged, all_bind]
      exact ⟨ih fun index hindex => hbody index (by omega),
        fun before _ => hbody count (Nat.lt_succ_self count) before⟩

/-- Where the accesses of a pass depend on its counter only, those of the loop are the
accesses of all its passes. -/
theorem forLogged_all_iff {count : ℕ} {body : ℕ → σ → Logged ι σ} {R : ℕ → Prop}
    (hreturns : ∀ index state, (body index state).Returns)
    (hbody : ∀ index state, (body index state).All P ↔ R index) (state : σ) :
    (forLogged count body state).Returns ∧
      ((forLogged count body state).All P ↔ ∀ index < count, R index) := by
  induction count with
  | zero =>
      exact ⟨returns_pure state,
        iff_of_true (all_pure state) fun _ hnone => absurd hnone (Nat.not_lt_zero _)⟩
  | succ count ih =>
      obtain ⟨⟨last, hlast⟩, hall⟩ := ih
      refine ⟨returns_bind ⟨last, hlast⟩ fun before _ => hreturns count before, ?_⟩
      rw [forLogged, all_bind, hall, Nat.forall_lt_succ_right, hlast]
      simp only [Option.some.injEq, forall_eq', hbody]

/-! ## Folds -/

section Fold

variable {ε : Type} {step : σ → ε → Logged ι σ}

/-- The accesses apart, it is the fold of what the steps return. -/
theorem foldlM_result {next : σ → ε → σ}
    (hstep : ∀ state event, (step state event).result = some (next state event))
    (state : σ) (events : List ε) :
    (events.foldlM step state).result = some (events.foldl next state) := by
  induction events generalizing state with
  | nil => rfl
  | cons event events ih =>
      rw [List.foldlM_cons, result_bind, hstep, Option.bind_some, ih, List.foldl_cons]

theorem foldlM_holds {Inv : σ → Prop}
    (hstep : ∀ state event, Inv state → (step state event).Holds P Inv)
    {state : σ} (hinit : Inv state) (events : List ε) :
    (events.foldlM step state).Holds P Inv := by
  induction events generalizing state with
  | nil => exact holds_pure hinit
  | cons event events ih =>
      rw [List.foldlM_cons]
      exact holds_bind (hstep state event hinit) fun _ hnext => ih hnext

end Fold

/-! ## Loops with an `int` counter -/

/-- `for (int i = start; cond; i++) body`, with at most `fuel` evaluations of the
condition.  The result is the last counter and the state. -/
def forInt (cond : Word32 → σ → Logged ι Bool) (body : Word32 → σ → Logged ι σ) :
    ℕ → Word32 → σ → Logged ι (Word32 × σ)
  | 0, _, _ => hang
  | fuel + 1, counter, state => do
      if ← cond counter state then
        let state ← body counter state
        forInt cond body fuel (counter + 1) state
      else pure (counter, state)

/-- More passes than an `int` has values. -/
def passes : ℕ := 2 ^ 33

variable {cond : Word32 → σ → Logged ι Bool} {body : Word32 → σ → Logged ι σ}

theorem forInt_succ (fuel : ℕ) (counter : Word32) (state : σ) :
    forInt cond body (fuel + 1) counter state =
      cond counter state >>= fun again =>
        if again then body counter state >>= forInt cond body fuel (counter + 1)
        else pure (counter, state) := rfl

/-- Invariant rule: `Inv` speaks about the counter and the state before the condition
is evaluated. -/
theorem forInt_holds {Q : Word32 × σ → Prop} (Inv : Word32 → σ → Prop)
    (hstep : ∀ counter state, Inv counter state → (cond counter state).Holds P fun again =>
      if again then (body counter state).Holds P (Inv (counter + 1)) else Q (counter, state))
    {fuel : ℕ} {counter : Word32} {state : σ} (hinit : Inv counter state) :
    (forInt cond body fuel counter state).Holds P Q := by
  induction fuel generalizing counter state with
  | zero => exact holds_hang
  | succ fuel ih =>
      rw [forInt_succ]
      apply holds_bind (hstep counter state hinit)
      intro again hagain
      cases again with
      | false => exact holds_pure hagain
      | true => exact holds_bind hagain fun _ hinv => ih hinv

theorem counter_succ (counter : Word32) (done : ℕ) :
    counter + 1 + BitVec.ofNat 32 done = counter + BitVec.ofNat 32 (done + 1) := by
  rw [BitVec.add_assoc, BitVec.ofNat_add, BitVec.add_comm 1]
  rfl

theorem counter_zero (done : ℕ) : (0 : Word32) + BitVec.ofNat 32 done = BitVec.ofNat 32 done :=
  BitVec.zero_add _

/-- A loop whose condition is false after some number of passes returns.  `Inv` speaks
about the passes done and the state. -/
theorem forInt_returns_after (Inv : ℕ → σ → Prop) {count fuel passed : ℕ} {start : Word32}
    {state : σ} (hinit : Inv passed state)
    (hcond : ∀ done state, Inv done state →
      (cond (start + BitVec.ofNat 32 done) state).Returns)
    (hbody : ∀ done state, Inv done state →
      ∃ next, (body (start + BitVec.ofNat 32 done) state).result = some next ∧ Inv (done + 1) next)
    (hfuel : count < fuel)
    (hstop : ∀ state, Inv (passed + count) state →
      (cond (start + BitVec.ofNat 32 (passed + count)) state).result = some false) :
    (forInt cond body fuel (start + BitVec.ofNat 32 passed) state).Returns := by
  induction count generalizing fuel passed state with
  | zero =>
      obtain ⟨fuel, rfl⟩ : ∃ less, fuel = less + 1 := ⟨fuel - 1, by omega⟩
      refine ⟨(start + BitVec.ofNat 32 passed, state), ?_⟩
      have hfalse := hstop state hinit
      rw [Nat.add_zero] at hfalse
      rw [forInt_succ, result_bind, hfalse]
      rfl
  | succ count ih =>
      obtain ⟨fuel, rfl⟩ : ∃ less, fuel = less + 1 := ⟨fuel - 1, by omega⟩
      rw [forInt_succ]
      apply returns_bind (hcond passed state hinit)
      intro again _
      cases again with
      | false => exact returns_pure _
      | true =>
          obtain ⟨next, hnext, hinv⟩ := hbody passed state hinit
          apply returns_bind ⟨next, hnext⟩
          intro next' hnext'
          obtain rfl := Option.some.inj (hnext.symm.trans hnext')
          rw [BitVec.add_assoc, show (1 : Word32) = BitVec.ofNat 32 1 from rfl, ← BitVec.ofNat_add]
          apply ih hinv (by omega)
          rwa [Nat.add_right_comm]

/-- A loop whose condition is false at some counter that it comes to returns. -/
theorem forInt_returns (Inv : σ → Prop) {fuel count : ℕ} {counter : Word32} {state : σ}
    (hinit : Inv state) (hcond : ∀ counter state, Inv state → (cond counter state).Returns)
    (hbody : ∀ counter state, Inv state →
      ∃ next, (body counter state).result = some next ∧ Inv next)
    (hfuel : count < fuel)
    (hstop : ∀ state, Inv state →
      (cond (counter + BitVec.ofNat 32 count) state).result = some false) :
    (forInt cond body fuel counter state).Returns := by
  rw [← BitVec.add_zero counter]
  apply forInt_returns_after (fun _ => Inv) hinit (fun _ state => hcond _ state)
    (fun _ state => hbody _ state) hfuel
  rwa [Nat.zero_add]

/-- A loop that cannot stop before pass `count` comes to it. -/
private theorem forInt_comes_to (Inv : σ → Prop) {fuel count : ℕ} {counter : Word32} {state : σ}
    (hinit : Inv state)
    (hpass : ∀ done < count, ∀ state, Inv state →
      (cond (counter + BitVec.ofNat 32 done) state).result = some true ∧
        ∃ next, (body (counter + BitVec.ofNat 32 done) state).result = some next ∧ Inv next)
    (hfuel : count < fuel) (hall : (forInt cond body fuel counter state).All P) :
    ∃ left state, Inv state ∧
      (forInt cond body (left + 1) (counter + BitVec.ofNat 32 count) state).All P := by
  induction count generalizing fuel counter state with
  | zero =>
      obtain ⟨fuel, rfl⟩ : ∃ less, fuel = less + 1 := ⟨fuel - 1, by omega⟩
      exact ⟨fuel, state, hinit, (BitVec.add_zero counter).symm ▸ hall⟩
  | succ count ih =>
      obtain ⟨fuel, rfl⟩ : ∃ less, fuel = less + 1 := ⟨fuel - 1, by omega⟩
      obtain ⟨hagain, next, hnext, hinv⟩ := hpass 0 (by omega) state hinit
      rw [BitVec.add_zero] at hagain hnext
      rw [forInt_succ, all_bind] at hall
      have hrest := hall.2 true hagain
      rw [if_pos rfl, all_bind] at hrest
      rw [← counter_succ]
      apply ih hinv _ (by omega) (hrest.2 next hnext)
      intro done hdone state hstate
      rw [counter_succ]
      exact hpass (done + 1) (by omega) state hstate

/-- A loop that cannot stop before pass `count` evaluates its condition there. -/
theorem forInt_reaches (Inv : σ → Prop) {fuel count : ℕ} {counter : Word32} {state : σ}
    (hinit : Inv state)
    (hpass : ∀ done < count, ∀ state, Inv state →
      (cond (counter + BitVec.ofNat 32 done) state).result = some true ∧
        ∃ next, (body (counter + BitVec.ofNat 32 done) state).result = some next ∧ Inv next)
    (hfuel : count < fuel) (hall : (forInt cond body fuel counter state).All P) :
    ∃ state, Inv state ∧ (cond (counter + BitVec.ofNat 32 count) state).All P := by
  obtain ⟨left, last, hlast, hrest⟩ := forInt_comes_to Inv hinit hpass hfuel hall
  rw [forInt_succ, all_bind] at hrest
  exact ⟨last, hlast, hrest.1⟩

/-- A loop that cannot stop at pass `count` either runs its body there. -/
theorem forInt_performs (Inv : σ → Prop) {fuel count : ℕ} {counter : Word32} {state : σ}
    (hinit : Inv state)
    (hpass : ∀ done ≤ count, ∀ state, Inv state →
      (cond (counter + BitVec.ofNat 32 done) state).result = some true ∧
        ∃ next, (body (counter + BitVec.ofNat 32 done) state).result = some next ∧ Inv next)
    (hfuel : count < fuel) (hall : (forInt cond body fuel counter state).All P) :
    ∃ state, Inv state ∧ (body (counter + BitVec.ofNat 32 count) state).All P := by
  obtain ⟨left, last, hlast, hrest⟩ :=
    forInt_comes_to Inv hinit (fun done hdone => hpass done (Nat.le_of_lt hdone)) hfuel hall
  rw [forInt_succ, all_bind] at hrest
  have hbody := hrest.2 true (hpass count le_rfl last hlast).1
  rw [if_pos rfl, all_bind] at hbody
  exact ⟨last, hlast, hbody.1⟩

end RedX.AccessLog
