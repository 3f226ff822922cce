import RedX.Core.MachineWord

/-!
# Counted loops

`forLoop` is a loop whose counter is as wide as its bound.  `intFor` is the
loop `for (int i = 0; i < count; i++)` against a 64-bit unsigned bound: the
counter wraps at `2^31` and is sign-extended for the comparison, so a large
bound stops it early.  `intFor_eq_forLoop` gives the number of passes.
-/

namespace RedX.CountedLoop

open RedX.MachineWord

variable {σ : Type*}

def forLoop (count : ℕ) (body : ℕ → σ → σ) (state : σ) : σ :=
  match count with
  | 0 => state
  | count + 1 => body count (forLoop count body state)

@[simp]
theorem forLoop_zero (body : ℕ → σ → σ) (state : σ) : forLoop 0 body state = state := rfl

@[simp]
theorem forLoop_succ (count : ℕ) (body : ℕ → σ → σ) (state : σ) :
    forLoop (count + 1) body state = body count (forLoop count body state) := rfl

/-- Loop invariant rule: what holds before the first pass and is carried by
every pass holds at the end. -/
theorem forLoop_invariant {count : ℕ} {body : ℕ → σ → σ} {state : σ}
    (Inv : ℕ → σ → Prop) (hinit : Inv 0 state)
    (hstep : ∀ index < count, ∀ current, Inv index current →
      Inv (index + 1) (body index current)) :
    Inv count (forLoop count body state) := by
  induction count with
  | zero => exact hinit
  | succ count ih =>
      apply hstep count (Nat.lt_succ_self count)
      exact ih fun index hindex => hstep index (by omega)

theorem forLoop_congr {count : ℕ} {body body' : ℕ → σ → σ}
    (hbody : ∀ index < count, ∀ state, body index state = body' index state) (state : σ) :
    forLoop count body state = forLoop count body' state := by
  induction count with
  | zero => rfl
  | succ count ih =>
      rw [forLoop_succ, forLoop_succ, ih fun index hindex => hbody index (by omega)]
      exact hbody count (Nat.lt_succ_self count) _

/-- A loop in which only one pass does anything. -/
theorem forLoop_single {count only : ℕ} {body : ℕ → σ → σ} {state : σ} (honly : only < count)
    (hbefore : ∀ index < only, body index state = state)
    (hafter : ∀ index, only < index → index < count →
      body index (body only state) = body only state) :
    forLoop count body state = body only state := by
  have hnothing : forLoop only body state = state := by
    refine forLoop_invariant (fun _ current => current = state) rfl ?_
    rintro index hindex current rfl
    exact hbefore index hindex
  induction count with
  | zero => omega
  | succ count ih =>
      rw [forLoop_succ]
      by_cases hlast : only = count
      · rw [← hlast, hnothing]
      · rw [ih (by omega) fun index hgt hlt => hafter index hgt (by omega)]
        exact hafter count (by omega) (Nat.lt_succ_self count)

/-- A counted loop is a fold over its counters. -/
theorem forLoop_eq_foldl (count : ℕ) (body : ℕ → σ → σ) (state : σ) :
    forLoop count body state = (List.range count).foldl (fun state i => body i state) state := by
  induction count with
  | zero => rfl
  | succ count ih =>
      rw [forLoop_succ, ih, List.range_succ, List.foldl_append]
      rfl

/-- The loop with a 32-bit counter, `fuel` bounding the number of passes. -/
def intLoop (count : Word64) (body : Word32 → σ → σ) : ℕ → Word32 → σ → σ
  | 0, _, state => state
  | fuel + 1, counter, state =>
      if counter.signExtend 64 < count then
        intLoop count body fuel (counter + 1) (body counter state)
      else state

/-- `for (int i = 0; i < count; i++)`.  The counter has `2^32` values and the
value `-1` never passes the comparison, so `2^32` passes always suffice. -/
def intFor (count : Word64) (body : Word32 → σ → σ) (state : σ) : σ :=
  intLoop count body (2 ^ 32) 0 state

/-- Number of passes of `intFor`. -/
def intPasses (count : Word64) : ℕ :=
  if count.toNat ≤ 2 ^ 31 then count.toNat
  else if count.toNat ≤ 2 ^ 64 - 2 ^ 31 then 2 ^ 31
  else count.toNat - (2 ^ 64 - 2 ^ 32)

theorem intPasses_lt (count : Word64) : intPasses count < 2 ^ 32 := by
  have := count.isLt
  unfold intPasses
  split_ifs <;> omega

theorem signExtend_lt_iff {count : Word64} {counter : ℕ} (hcounter : counter ≤ intPasses count) :
    (BitVec.ofNat 32 counter).signExtend 64 < count ↔ counter < intPasses count := by
  have hbound := intPasses_lt count
  have hcount := count.isLt
  have hvalue : (BitVec.ofNat 32 counter).toNat = counter := by
    rw [BitVec.toNat_ofNat]
    omega
  rw [BitVec.lt_def]
  by_cases hnonneg : counter < 2 ^ 31
  · rw [toNat_signExtend_of_lt (by omega), hvalue]
    unfold intPasses at hcounter ⊢
    split_ifs at hcounter ⊢ <;> omega
  · rw [toNat_signExtend_of_ge (by omega), hvalue]
    unfold intPasses at hcounter ⊢
    split_ifs at hcounter ⊢ <;> omega

private theorem intLoop_eq_forLoop (count : Word64) (body : Word32 → σ → σ) (state : σ)
    (rest : ℕ) : ∀ counter fuel, counter + rest = intPasses count → rest < fuel →
      intLoop count body fuel (BitVec.ofNat 32 counter)
          (forLoop counter (fun index => body (BitVec.ofNat 32 index)) state) =
        forLoop (intPasses count) (fun index => body (BitVec.ofNat 32 index)) state := by
  induction rest with
  | zero =>
      intro counter fuel hcounter hfuel
      obtain ⟨fuel, rfl⟩ : ∃ less, fuel = less + 1 := ⟨fuel - 1, by omega⟩
      rw [intLoop, if_neg]
      · rw [← hcounter, Nat.add_zero]
      · rw [signExtend_lt_iff (by omega)]
        omega
  | succ rest ih =>
      intro counter fuel hcounter hfuel
      obtain ⟨fuel, rfl⟩ : ∃ less, fuel = less + 1 := ⟨fuel - 1, by omega⟩
      rw [intLoop, if_pos ((signExtend_lt_iff (by omega)).mpr (by omega))]
      have hnext : BitVec.ofNat 32 counter + 1 = BitVec.ofNat 32 (counter + 1) := by
        rw [BitVec.ofNat_add]
        rfl
      rw [hnext]
      exact ih (counter + 1) fuel (by omega) (by omega)

theorem intFor_eq_forLoop (count : Word64) (body : Word32 → σ → σ) (state : σ) :
    intFor count body state =
      forLoop (intPasses count) (fun index => body (BitVec.ofNat 32 index)) state :=
  intLoop_eq_forLoop count body state (intPasses count) 0 (2 ^ 32) (by omega)
    (intPasses_lt count)

/-! ## Loops up to a last value -/

/-- The loop with a 32-bit counter up to `last`, `fuel` bounding the number of passes. -/
def throughLoop (last : Word32) (body : Word32 → σ → Option σ) : ℕ → Word32 → σ → Option σ
  | 0, _, _ => none
  | fuel + 1, counter, state =>
      if counter ≤ last then
        (body counter state).bind fun next => throughLoop last body fuel (counter + 1) next
      else some state

/-- `for (int i = first; i <= last; i++)` with an unsigned `last`.  More than `2^32` passes
would pass a counter twice, so such a loop does not end. -/
def throughFor (first last : Word32) (body : Word32 → σ → Option σ) (state : σ) : Option σ :=
  throughLoop last body (2 ^ 32 + 1) first state

theorem throughLoop_eq_forLoop {last : Word32} (hlast : last.toNat + 1 < 2 ^ 32)
    {body : Word32 → σ → Option σ} {pass : Word32 → σ → σ}
    (hbody : ∀ counter ≤ last, ∀ state, body counter state = some (pass counter state))
    (first : Word32) (state : σ) (rest : ℕ) :
    ∀ done fuel, done + rest = last.toNat + 1 - first.toNat → rest < fuel →
      throughLoop last body fuel (first + BitVec.ofNat 32 done)
          (forLoop done (fun index => pass (first + BitVec.ofNat 32 index)) state) =
        some (forLoop (last.toNat + 1 - first.toNat)
          (fun index => pass (first + BitVec.ofNat 32 index)) state) := by
  have hfirst := first.isLt
  induction rest with
  | zero =>
      intro done fuel hdone hfuel
      obtain ⟨fuel, rfl⟩ : ∃ less, fuel = less + 1 := ⟨fuel - 1, by omega⟩
      rw [throughLoop, if_neg, ← hdone, Nat.add_zero]
      rw [BitVec.le_def, BitVec.toNat_add, BitVec.toNat_ofNat]
      omega
  | succ rest ih =>
      intro done fuel hdone hfuel
      obtain ⟨fuel, rfl⟩ : ∃ less, fuel = less + 1 := ⟨fuel - 1, by omega⟩
      have hcounter : first + BitVec.ofNat 32 done ≤ last := by
        rw [BitVec.le_def, BitVec.toNat_add, BitVec.toNat_ofNat]
        omega
      have hnext : first + BitVec.ofNat 32 done + 1 = first + BitVec.ofNat 32 (done + 1) := by
        rw [BitVec.ofNat_add, BitVec.add_assoc]
        rfl
      rw [throughLoop, if_pos hcounter, hbody _ hcounter, Option.bind_some, hnext]
      exact ih (done + 1) fuel (by omega) (by omega)

theorem throughFor_eq_forLoop {last : Word32} (hlast : last.toNat + 1 < 2 ^ 32)
    {body : Word32 → σ → Option σ} {pass : Word32 → σ → σ}
    (hbody : ∀ counter ≤ last, ∀ state, body counter state = some (pass counter state))
    (first : Word32) (state : σ) :
    throughFor first last body state = some (forLoop (last.toNat + 1 - first.toNat)
      (fun index => pass (first + BitVec.ofNat 32 index)) state) := by
  have hloop := throughLoop_eq_forLoop hlast hbody first state (last.toNat + 1 - first.toNat) 0
    (2 ^ 32 + 1) (by omega) (by omega)
  rwa [BitVec.add_zero] at hloop

/-- A loop without a pass. -/
theorem throughFor_of_lt {first last : Word32} (hempty : last < first)
    (body : Word32 → σ → Option σ) (state : σ) : throughFor first last body state = some state :=
  if_neg (BitVec.not_le.mpr hempty)

/-- A loop whose counters are all below its bound does not end. -/
theorem throughFor_eq_none {last : Word32} (hlast : last.toNat + 1 = 2 ^ 32)
    (first : Word32) (body : Word32 → σ → Option σ) (state : σ) :
    throughFor first last body state = none := by
  have hnone : ∀ fuel counter state, throughLoop last body fuel counter state = none := by
    intro fuel
    induction fuel with
    | zero => exact fun _ _ => rfl
    | succ fuel ih =>
        intro counter state
        have hcounter : counter ≤ last := by
          have := counter.isLt
          rw [BitVec.le_def]
          omega
        rw [throughLoop, if_pos hcounter]
        cases body counter state with
        | none => rfl
        | some next => exact ih (counter + 1) next
  exact hnone _ first state

/-- A loop that takes its first pass ends only if that pass does. -/
theorem throughFor_eq_none_of_body {first last : Word32} (hfirst : first ≤ last)
    {body : Word32 → σ → Option σ} {state : σ} (hbody : body first state = none) :
    throughFor first last body state = none := by
  rw [throughFor, throughLoop, if_pos hfirst, hbody, Option.bind_none]

end RedX.CountedLoop
