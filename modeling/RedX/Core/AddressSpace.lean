import Mathlib.Data.Set.Insert
import Mathlib.Logic.Function.Basic

/-!
# Address spaces

A translation takes the addresses that a program uses to places of a memory.  Where it
takes different addresses to different places the program sees a memory of its own:
a write at one address changes what is seen there and nothing else.
-/

namespace RedX.AddressSpace

variable {V P B : Type*} {translate translate' : V → Option P} {used : Set V} {kept : Set P}
  {memory memory' : P → B} {contents : V → B} {value : B} {v : V} {place : P}

/-- What is seen at an address, `blank` where it does not lead anywhere. -/
def seen (translate : V → Option P) (memory : P → B) (blank : B) (v : V) : B :=
  ((translate v).map memory).getD blank

/-- At the used addresses the memory shows `contents`. -/
def Shows (translate : V → Option P) (used : Set V) (memory : P → B) (contents : V → B) : Prop :=
  ∀ v ∈ used, (translate v).map memory = some (contents v)

/-- The used addresses lead to places outside `kept`, and no two of them to the same. -/
structure Private (translate : V → Option P) (used : Set V) (kept : Set P) : Prop where
  mapped : ∀ v ∈ used, ∃ place ∉ kept, translate v = some place
  injective : ∀ v ∈ used, ∀ w ∈ used, translate v = translate w → v = w

theorem Private.shows_seen (hprivate : Private translate used kept) (memory : P → B) (blank : B) :
    Shows translate used memory (seen translate memory blank) := by
  intro v hv
  obtain ⟨place, -, hplace⟩ := hprivate.mapped v hv
  rw [seen, hplace]
  rfl

theorem Shows.unique {other : V → B} (hshows : Shows translate used memory contents)
    (hother : Shows translate used memory other) (hv : v ∈ used) : other v = contents v :=
  Option.some.inj ((hother v hv).symm.trans (hshows v hv))

/-- Another memory and translation show the same if they agree at the used addresses. -/
theorem Shows.congr (hshows : Shows translate used memory contents)
    (htranslate : ∀ v ∈ used, translate' v = translate v)
    (hmemory : ∀ v ∈ used, ∀ place, translate v = some place → memory' place = memory place) :
    Shows translate' used memory' contents := by
  intro v hv
  rw [htranslate v hv, ← hshows v hv]
  cases hplace : translate v with
  | none => rfl
  | some place => exact congrArg some (hmemory v hv place hplace)

theorem Private.congr (hprivate : Private translate used kept)
    (htranslate : ∀ v ∈ used, translate' v = translate v) : Private translate' used kept where
  mapped v hv := by
    rw [htranslate v hv]
    exact hprivate.mapped v hv
  injective v hv w hw := by
    rw [htranslate v hv, htranslate w hw]
    exact hprivate.injective v hv w hw

/-- A write changes what is seen at its address only. -/
theorem Private.shows_update [DecidableEq V] [DecidableEq P]
    (hprivate : Private translate used kept) (hshows : Shows translate used memory contents)
    (hv : v ∈ used) (hplace : translate v = some place) (value : B) :
    Shows translate used (Function.update memory place value)
      (Function.update contents v value) := by
  intro w hw
  obtain ⟨target, -, htarget⟩ := hprivate.mapped w hw
  by_cases hsame : w = v
  · subst hsame
    rw [hplace, Option.map_some, Function.update_self, Function.update_self]
  · have hne : target ≠ place := by
      rintro rfl
      exact hsame (hprivate.injective w hw v hv (htarget.trans hplace.symm))
    rw [Function.update_of_ne hsame, ← hshows w hw, htarget, Option.map_some, Option.map_some,
      Function.update_of_ne hne]

end RedX.AddressSpace
