import Mathlib.Data.Set.Lattice
import RedX.Core.AccessLog

/-!
# Layers of a picture

A layer gives values to some points of a picture and leaves the others as they are.  What is
painted in several steps is one layer, in which the last value of a point counts.  A canvas
is the part of a machine that is seen; `logs_foldlM` puts the layers of a list of calls
together.
-/

namespace RedX.Layers

open RedX.AccessLog
open RedX.CountedLoop

variable {σ ε ι α : Type*}

abbrev Layer (ι α : Type*) := ι → Option α

/-- The picture below the layer, seen through it. -/
def Layer.over (layer : Layer ι α) (picture : ι → α) : ι → α :=
  fun point => (layer point).getD (picture point)

def blank : Layer ι α := fun _ => none

def Layer.stack (top bottom : Layer ι α) : Layer ι α := fun point => (top point).or (bottom point)

/-- The points that the layer gives a value to. -/
def Layer.support (layer : Layer ι α) : Set ι := {point | (layer point).isSome}

open Classical in
/-- One value on a set of points. -/
noncomputable def ink (points : Set ι) (value : α) : Layer ι α :=
  fun point => if point ∈ points then some value else none

variable {layer top middle bottom : Layer ι α} {picture : ι → α} {points more : Set ι}
  {value : α} {point : ι}

@[simp]
theorem blank_stack (layer : Layer ι α) : blank.stack layer = layer := by
  funext point
  rw [Layer.stack, blank, Option.none_or]

@[simp]
theorem stack_blank (layer : Layer ι α) : layer.stack blank = layer := by
  funext point
  rw [Layer.stack, blank, Option.or_none]

theorem stack_assoc (top middle bottom : Layer ι α) :
    (top.stack middle).stack bottom = top.stack (middle.stack bottom) := by
  funext point
  exact Option.or_assoc

theorem over_stack (top bottom : Layer ι α) (picture : ι → α) :
    (top.stack bottom).over picture = top.over (bottom.over picture) := by
  funext point
  cases htop : top point with
  | none => simp [Layer.over, Layer.stack, htop]
  | some value => simp [Layer.over, Layer.stack, htop]

theorem over_of_not_mem (hpoint : point ∉ layer.support) :
    layer.over picture point = picture point := by
  have hnone : layer point = none := Option.not_isSome_iff_eq_none.mp hpoint
  rw [Layer.over, hnone, Option.getD_none]

@[simp]
theorem mem_support_ink : point ∈ (ink points value).support ↔ point ∈ points := by
  by_cases hpoint : point ∈ points <;> simp [Layer.support, ink, hpoint]

theorem ink_of_mem (hpoint : point ∈ points) : ink points value point = some value :=
  if_pos hpoint

theorem ink_of_not_mem (hpoint : point ∉ points) : ink points value point = none :=
  if_neg hpoint

theorem ink_over_of_mem (hpoint : point ∈ points) :
    (ink points value).over picture point = value := by
  rw [Layer.over, ink_of_mem hpoint, Option.getD_some]

theorem ink_over_of_not_mem (hpoint : point ∉ points) :
    (ink points value).over picture point = picture point :=
  over_of_not_mem (by rwa [mem_support_ink])

@[simp]
theorem ink_empty (value : α) : ink (∅ : Set ι) value = blank := by
  funext point
  exact ink_of_not_mem (Set.notMem_empty point)

theorem ink_union (points more : Set ι) (value : α) :
    (ink points value).stack (ink more value) = ink (points ∪ more) value := by
  funext point
  by_cases hpoints : point ∈ points
  · rw [Layer.stack, ink_of_mem hpoints, ink_of_mem (Set.mem_union_left _ hpoints),
      Option.some_or]
  · rw [Layer.stack, ink_of_not_mem hpoints, Option.none_or]
    by_cases hmore : point ∈ more
    · rw [ink_of_mem hmore, ink_of_mem (Set.mem_union_right _ hmore)]
    · rw [ink_of_not_mem hmore, ink_of_not_mem]
      rintro (hpoint | hpoint)
      exacts [hpoints hpoint, hmore hpoint]

/-! ## Canvases -/

/-- Points of the states of a machine, and what two states share besides. -/
structure Canvas (σ ι α : Type*) where
  points : Set ι
  shown : σ → ι → α
  rest : Setoid σ
  ext : ∀ s s', rest s s' → (∀ point ∈ points, shown s' point = shown s point) → s' = s

variable {canvas : Canvas σ ι α} {s s' s'' : σ}

/-- The layer has been painted, and nothing else has changed. -/
structure Canvas.Paints (canvas : Canvas σ ι α) (layer : Layer ι α) (s s' : σ) : Prop where
  shown : ∀ point ∈ canvas.points, canvas.shown s' point = layer.over (canvas.shown s) point
  rest : canvas.rest s s'

theorem Canvas.Paints.refl (canvas : Canvas σ ι α) (s : σ) : canvas.Paints blank s s :=
  ⟨fun _ _ => rfl, canvas.rest.refl s⟩

theorem Canvas.Paints.trans (hbottom : canvas.Paints bottom s s')
    (htop : canvas.Paints top s' s'') : canvas.Paints (top.stack bottom) s s'' := by
  refine ⟨fun point hpoint => ?_, canvas.rest.trans hbottom.rest htop.rest⟩
  rw [htop.shown point hpoint, over_stack, Layer.over, Layer.over, hbottom.shown point hpoint]

/-- What a layer gives to points that are not on the canvas does not matter. -/
theorem Canvas.Paints.congr (hpaints : canvas.Paints layer s s')
    (hsame : ∀ point ∈ canvas.points, top point = layer point) : canvas.Paints top s s' := by
  refine ⟨fun point hpoint => ?_, hpaints.rest⟩
  rw [hpaints.shown point hpoint, Layer.over, Layer.over, hsame point hpoint]

/-- Painting has one result. -/
theorem Canvas.Paints.unique (hleft : canvas.Paints layer s s')
    (hright : canvas.Paints layer s s'') : s'' = s' := by
  refine canvas.ext s' s'' (canvas.rest.trans (canvas.rest.symm hleft.rest) hright.rest) ?_
  intro point hpoint
  rw [hright.shown point hpoint, hleft.shown point hpoint]

/-- A layer of what is seen already changes nothing. -/
theorem Canvas.Paints.eq_self (hpaints : canvas.Paints layer s s')
    (hseen : ∀ point ∈ canvas.points, layer.over (canvas.shown s) point = canvas.shown s point) :
    s' = s :=
  canvas.ext s s' hpaints.rest fun point hpoint =>
    (hpaints.shown point hpoint).trans (hseen point hpoint)

/-- Two machines that differ in what a layer covers are the same under it. -/
theorem Canvas.Paints.forgets {t t' : σ} (hleft : canvas.Paints layer s s')
    (hright : canvas.Paints layer t t') (hrest : canvas.rest s t)
    (hcovers : ∀ point ∈ canvas.points, point ∉ layer.support →
      canvas.shown t point = canvas.shown s point) : t' = s' := by
  refine canvas.ext s' t' ?_ fun point hpoint => ?_
  · exact canvas.rest.trans (canvas.rest.symm hleft.rest) (canvas.rest.trans hrest hright.rest)
  · rw [hright.shown point hpoint, hleft.shown point hpoint]
    by_cases hmem : point ∈ layer.support
    · obtain ⟨value, hvalue⟩ := Option.isSome_iff_exists.mp hmem
      rw [Layer.over, Layer.over, hvalue, Option.getD_some, Option.getD_some]
    · rw [over_of_not_mem hmem, over_of_not_mem hmem, hcovers point hpoint hmem]

/-- Nothing has changed but the points. -/
structure Canvas.Within (canvas : Canvas σ ι α) (points : Set ι) (s s' : σ) : Prop where
  shown : ∀ point ∈ canvas.points, point ∉ points →
    canvas.shown s' point = canvas.shown s point
  rest : canvas.rest s s'

theorem Canvas.Within.refl (canvas : Canvas σ ι α) (points : Set ι) (s : σ) :
    canvas.Within points s s :=
  ⟨fun _ _ _ => rfl, canvas.rest.refl s⟩

theorem Canvas.Within.trans (hleft : canvas.Within points s s')
    (hright : canvas.Within points s' s'') : canvas.Within points s s'' :=
  ⟨fun point hpoint hother => (hright.shown point hpoint hother).trans
    (hleft.shown point hpoint hother), canvas.rest.trans hleft.rest hright.rest⟩

theorem Canvas.Paints.within (hpaints : canvas.Paints layer s s')
    (hsupport : layer.support ⊆ points) : canvas.Within points s s' :=
  ⟨fun point hpoint hother => (hpaints.shown point hpoint).trans
    (over_of_not_mem fun hmem => hother (hsupport hmem)), hpaints.rest⟩

theorem forLoop_within {count : ℕ} {body : ℕ → σ → σ}
    (hbody : ∀ index < count, ∀ current, canvas.Within points current (body index current)) :
    canvas.Within points s (forLoop count body s) :=
  forLoop_invariant (fun _ current => canvas.Within points s current)
    (Canvas.Within.refl canvas points s)
    fun index hindex current hcurrent => hcurrent.trans (hbody index hindex current)

/-- A value that is put under a condition. -/
theorem ite_paints {condition : Prop} [Decidable condition]
    (hput : canvas.Paints (ink {point} value) s s') :
    canvas.Paints (ink {other | condition ∧ other = point} value) s
      (if condition then s' else s) := by
  split_ifs with hcondition
  · exact hput.congr fun other _ => by simp only [hcondition, true_and]; rfl
  · refine (Canvas.Paints.refl canvas s).congr fun other _ => ink_of_not_mem ?_
    exact fun hother => hcondition hother.1

/-- A loop each of whose passes puts the same value on some points. -/
theorem forLoop_paints {count : ℕ} {body : ℕ → σ → σ} {places : ℕ → Set ι}
    (hpoints : ∀ point, point ∈ points ↔ ∃ index < count, point ∈ places index)
    (hbody : ∀ index < count, ∀ current, canvas.rest s current →
      canvas.Paints (ink (places index) value) current (body index current)) :
    canvas.Paints (ink points value) s (forLoop count body s) := by
  have hset : points = {point | ∃ index < count, point ∈ places index} := Set.ext hpoints
  rw [hset]
  refine forLoop_invariant (fun done current => canvas.Paints
    (ink {point | ∃ index < done, point ∈ places index} value) s current) ?_ ?_
  · have hnone : {point | ∃ index < 0, point ∈ places index} = (∅ : Set ι) := by
      ext point
      simp
    rw [hnone, ink_empty]
    exact Canvas.Paints.refl canvas s
  · intro index hindex current hcurrent
    have hnext := hcurrent.trans (hbody index hindex current hcurrent.rest)
    rw [ink_union] at hnext
    convert hnext using 2
    ext point
    constructor
    · rintro ⟨other, hother, hpoint⟩
      rcases Nat.lt_succ_iff_lt_or_eq.mp hother with hbefore | rfl
      · exact Or.inr ⟨other, hbefore, hpoint⟩
      · exact Or.inl hpoint
    · rintro (hpoint | ⟨other, hother, hpoint⟩)
      · exact ⟨index, Nat.lt_succ_self index, hpoint⟩
      · exact ⟨other, Nat.lt_succ_of_lt hother, hpoint⟩

/-- The layers of the events, the last one on top. -/
def layers (layerOf : ε → Layer ι α) : List ε → Layer ι α
  | [] => blank
  | event :: events => (layers layerOf events).stack (layerOf event)

theorem layers_append (layerOf : ε → Layer ι α) (left right : List ε) :
    layers layerOf (left ++ right) = (layers layerOf right).stack (layers layerOf left) := by
  induction left with
  | nil => exact (stack_blank _).symm
  | cons event left ih => rw [List.cons_append, layers, ih, layers, stack_assoc]

/-! ## Painting with a log -/

section Logs

variable {stroke : Type} {γ δ : Type} {layerOf : stroke → Layer ι α} {view : γ → σ}
  {view' : δ → σ} {Q : γ → Prop} {R : δ → Prop}

/-- The computation paints the layers of what it logs, and its value has the property. -/
def Canvas.Logs (canvas : Canvas σ ι α) (layerOf : stroke → Layer ι α) (view : γ → σ)
    (Q : γ → Prop) (s : σ) (computation : Logged stroke γ) : Prop :=
  ∀ value, computation.result = some value →
    canvas.Paints (layers layerOf computation.log) s (view value) ∧ Q value

theorem logs_pure {value : γ} (hvalue : Q value) :
    canvas.Logs layerOf view Q (view value) (pure value) := by
  rintro _ ⟨⟩
  exact ⟨Canvas.Paints.refl canvas _, hvalue⟩

theorem logs_access {place : stroke} {value : γ}
    (hpaints : canvas.Paints (layerOf place) s (view value)) (hvalue : Q value) :
    canvas.Logs layerOf view Q s (access place value) := by
  rintro _ ⟨⟩
  exact ⟨hpaints.congr fun _ _ => by rw [access, layers, layers, blank_stack], hvalue⟩

theorem logs_bind {first : Logged stroke γ} {next : γ → Logged stroke δ}
    (hfirst : canvas.Logs layerOf view Q s first)
    (hnext : ∀ value, Q value → canvas.rest s (view value) →
      canvas.Logs layerOf view' R (view value) (next value)) :
    canvas.Logs layerOf view' R s (first >>= next) := by
  intro final hfinal
  rw [result_bind, Option.bind_eq_some_iff] at hfinal
  obtain ⟨value, hvalue, hfinal⟩ := hfinal
  obtain ⟨hbelow, hQ⟩ := hfirst value hvalue
  obtain ⟨habove, hR⟩ := hnext value hQ hbelow.rest final hfinal
  rw [log_bind_of_result hvalue, layers_append]
  exact ⟨hbelow.trans habove, hR⟩

theorem logs_foldlM {events : List ε} {body : γ → ε → Logged stroke γ} {state : γ}
    (hstate : Q state)
    (hbody : ∀ current, ∀ event ∈ events, Q current → canvas.rest (view state) (view current) →
      canvas.Logs layerOf view Q (view current) (body current event)) :
    canvas.Logs layerOf view Q (view state) (events.foldlM body state) := by
  induction events generalizing state with
  | nil => exact logs_pure hstate
  | cons event events ih =>
      rw [List.foldlM_cons]
      refine logs_bind (hbody state event List.mem_cons_self hstate (canvas.rest.refl _)) ?_
      intro next hnext hkept
      refine ih hnext fun current later hlater hcurrent hrest => ?_
      exact hbody current later (List.mem_cons_of_mem _ hlater) hcurrent
        (canvas.rest.trans hkept hrest)

end Logs

end RedX.Layers
