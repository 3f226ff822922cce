import RedX.Core.ByteMemory

/-!
# Writes to several ranges

A list of range writes, performed one after the other.  Where no two ranges meet, the
order does not matter: every range holds its own bytes at the end, and every other byte
is what it was.
-/

namespace RedX.RangeWrites

open RedX.MachineWord
open RedX.ByteMemory

structure RangeWrite where
  base : Word64
  length : ℕ
  bytes : ℕ → Byte

/-- The addresses of the range. -/
def RangeWrite.Mem (write : RangeWrite) (address : Word64) : Prop :=
  offset write.base address < write.length

def RangeWrite.perform (memory : Memory) (write : RangeWrite) : Memory :=
  store memory write.base write.length write.bytes

def performAll (memory : Memory) (writes : List RangeWrite) : Memory :=
  writes.foldl RangeWrite.perform memory

def Separate (left right : RangeWrite) : Prop :=
  Apart left.base left.length right.base right.length

variable {memory : Memory} {writes : List RangeWrite} {write : RangeWrite} {address : Word64}

@[simp]
theorem performAll_nil (memory : Memory) : performAll memory [] = memory := rfl

@[simp]
theorem performAll_cons (memory : Memory) (write : RangeWrite) (writes : List RangeWrite) :
    performAll memory (write :: writes) = performAll (write.perform memory) writes := rfl

/-- A byte outside of every range keeps its value. -/
theorem performAll_of_outside (houtside : ∀ write ∈ writes, ¬ write.Mem address) :
    performAll memory writes address = memory address := by
  induction writes generalizing memory with
  | nil => rfl
  | cons write writes ih =>
      have hrest : ∀ later ∈ writes, ¬ later.Mem address := fun later hlater =>
        houtside later (List.mem_cons_of_mem _ hlater)
      rw [performAll_cons, ih hrest]
      apply store_of_le_offset
      exact Nat.le_of_not_lt (houtside write List.mem_cons_self)

/-- A byte inside of one range is the byte written there. -/
theorem performAll_of_mem (hseparate : writes.Pairwise Separate) (hwrite : write ∈ writes)
    (hinside : write.Mem address) :
    performAll memory writes address = write.bytes (offset write.base address) := by
  induction writes generalizing memory with
  | nil => cases hwrite
  | cons first rest ih =>
      rw [List.pairwise_cons] at hseparate
      rw [performAll_cons]
      rcases List.mem_cons.mp hwrite with rfl | hlater
      · rw [performAll_of_outside fun later hlater =>
          Nat.not_lt.mpr (hseparate.1 later hlater address hinside)]
        exact store_of_offset_lt hinside
      · exact ih hseparate.2 hlater

end RedX.RangeWrites
