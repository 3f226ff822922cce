import Mathlib.Algebra.Group.Nat.Defs
import Mathlib.Data.Nat.Basic
import Mathlib.Tactic.Common

/-!
# Machine words

The fixed-width integers of the source.  A C `int` is a 32-bit word whose
arithmetic wraps; mixing it with a 64-bit unsigned operand sign-extends it, and
the two lemmas on `signExtend` say what number that is.
-/

namespace RedX.MachineWord

abbrev Byte := BitVec 8
abbrev Word32 := BitVec 32
abbrev Word64 := BitVec 64

/-- The characters of a string literal. -/
def literal (str : String) : List Byte := str.toList.map fun chr => BitVec.ofNat 8 chr.toNat

theorem toNat_signExtend_of_lt {word : Word32} (hnonneg : word.toNat < 2 ^ 31) :
    (word.signExtend 64).toNat = word.toNat := by
  have hmsb : word.msb = false := by
    rw [BitVec.msb_eq_decide, decide_eq_false_iff_not]
    omega
  rw [BitVec.toNat_signExtend, hmsb, BitVec.toNat_setWidth]
  simp only [Bool.false_eq_true, ↓reduceIte, Nat.add_zero]
  omega

theorem toNat_signExtend_of_ge {word : Word32} (hneg : 2 ^ 31 ≤ word.toNat) :
    (word.signExtend 64).toNat = 2 ^ 64 - 2 ^ 32 + word.toNat := by
  have hmsb : word.msb = true := by
    rw [BitVec.msb_eq_decide, decide_eq_true_iff]
    omega
  rw [BitVec.toNat_signExtend, hmsb, BitVec.toNat_setWidth]
  simp only [↓reduceIte]
  omega

theorem toInt_of_lt {word : Word32} (hnonneg : word.toNat < 2 ^ 31) :
    word.toInt = word.toNat :=
  BitVec.toInt_eq_toNat_of_lt (by omega)

/-- Page number of an address: the index that every `addr / 4096` computes. -/
def pageIndex (address : Word64) : ℕ := address.toNat / 4096

theorem toNat_add_page (address : Word64) :
    (address + 0x1000).toNat = (address.toNat + 4096) % 2 ^ 64 :=
  BitVec.toNat_add address 0x1000

theorem pageIndex_lt (address : Word64) : pageIndex address < 2 ^ 52 := by
  have := address.isLt
  unfold pageIndex
  omega

end RedX.MachineWord
