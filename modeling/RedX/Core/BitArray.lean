import Mathlib.Data.Nat.Count
import RedX.Core.ByteMemory

/-!
# Bit arrays

A range of bytes read as an array of bits, most significant bit of each byte
first.  Storing one byte changes the bits of that byte and no other bit.
-/

namespace RedX.BitArray

open RedX.MachineWord
open RedX.ByteMemory

/-- The byte with only bit `bit` set, counted from the most significant one. -/
def bitMask (bit : ℕ) : Byte := 0b10000000#8 >>> bit

def bitAt (memory : Memory) (buffer : Word64) (index : ℕ) : Bool :=
  (memory (buffer + BitVec.ofNat 64 (index / 8))).getMsbD (index % 8)

private theorem and_mask_pos : ∀ (value : Byte) (bit : Fin 8),
    decide (value &&& bitMask bit > 0) = value.getMsbD bit := by
  decide +kernel

private theorem getMsbD_mask : ∀ bit other : Fin 8,
    (bitMask bit).getMsbD other = decide (other = bit) := by
  decide

theorem getMsbD_bitMask {bit other : ℕ} (hbit : bit < 8) (hother : other < 8) :
    (bitMask bit).getMsbD other = decide (other = bit) := by
  simpa using getMsbD_mask ⟨bit, hbit⟩ ⟨other, hother⟩

theorem and_bitMask_pos_iff (value : Byte) {bit : ℕ} (hbit : bit < 8) :
    value &&& bitMask bit > 0 ↔ value.getMsbD bit = true := by
  rw [← and_mask_pos value ⟨bit, hbit⟩, decide_eq_true_iff]

theorem getMsbD_clear_bitMask (value : Byte) {bit other : ℕ} (hbit : bit < 8)
    (hother : other < 8) :
    (value &&& ~~~bitMask bit).getMsbD other =
      (value.getMsbD other && decide (other ≠ bit)) := by
  rw [BitVec.getMsbD_and, BitVec.getMsbD_not, getMsbD_bitMask hbit hother]
  simp [hother]

theorem getMsbD_set_bitMask (value : Byte) {bit other : ℕ} (hbit : bit < 8)
    (hother : other < 8) :
    (value ||| bitMask bit).getMsbD other =
      (value.getMsbD other || decide (other = bit)) := by
  rw [BitVec.getMsbD_or, getMsbD_bitMask hbit hother]

/-- Two byte positions of one buffer have the same address only if they are the
same position. -/
theorem add_ofNat_inj {buffer : Word64} {left right : ℕ} (hleft : left < 2 ^ 64)
    (hright : right < 2 ^ 64)
    (heq : buffer + BitVec.ofNat 64 left = buffer + BitVec.ofNat 64 right) :
    left = right := by
  rw [← offset_add_ofNat buffer hleft, heq, offset_add_ofNat buffer hright]

theorem bitAt_store8 (memory : Memory) (buffer : Word64) (value : Byte) {byte index : ℕ}
    (hbyte : byte < 2 ^ 64) (hindex : index < 2 ^ 64) :
    bitAt (store8 memory (buffer + BitVec.ofNat 64 byte) value) buffer index =
      if index / 8 = byte then value.getMsbD (index % 8) else bitAt memory buffer index := by
  unfold bitAt
  rw [store8_apply]
  by_cases heq : index / 8 = byte
  · rw [if_pos heq, if_pos (by rw [heq])]
  · rw [if_neg heq, if_neg]
    intro haddress
    exact heq (add_ofNat_inj (by omega) hbyte haddress)

def clearBit (memory : Memory) (buffer : Word64) (index : ℕ) : Memory :=
  let address := buffer + BitVec.ofNat 64 (index / 8)
  store8 memory address (memory address &&& ~~~bitMask (index % 8))

def setBit (memory : Memory) (buffer : Word64) (index : ℕ) : Memory :=
  let address := buffer + BitVec.ofNat 64 (index / 8)
  store8 memory address (memory address ||| bitMask (index % 8))

section Update

variable {index other : ℕ}

theorem bitAt_clearBit (memory : Memory) (buffer : Word64) (hindex : index < 2 ^ 64)
    (hother : other < 2 ^ 64) :
    bitAt (clearBit memory buffer index) buffer other =
      (bitAt memory buffer other && decide (other ≠ index)) := by
  rw [clearBit, bitAt_store8 _ _ _ (by omega) hother,
    getMsbD_clear_bitMask _ (by omega) (by omega)]
  by_cases hbyte : other / 8 = index / 8
  · have hsame : other % 8 ≠ index % 8 ↔ other ≠ index := by omega
    rw [if_pos hbyte, bitAt, hbyte]
    simp only [hsame]
  · have hne : other ≠ index := by
      rintro rfl
      exact hbyte rfl
    rw [if_neg hbyte]
    simp [hne]

theorem bitAt_setBit (memory : Memory) (buffer : Word64) (hindex : index < 2 ^ 64)
    (hother : other < 2 ^ 64) :
    bitAt (setBit memory buffer index) buffer other =
      (bitAt memory buffer other || decide (other = index)) := by
  rw [setBit, bitAt_store8 _ _ _ (by omega) hother,
    getMsbD_set_bitMask _ (by omega) (by omega)]
  by_cases hbyte : other / 8 = index / 8
  · have hsame : other % 8 = index % 8 ↔ other = index := by omega
    rw [if_pos hbyte, bitAt, hbyte]
    simp only [hsame]
  · have hne : other ≠ index := by
      rintro rfl
      exact hbyte rfl
    rw [if_neg hbyte]
    simp [hne]

end Update

/-! ## The number of set bits -/

/-- The population counts of the first `bytes` bytes added up. -/
def countSet (memory : Memory) (buffer : Word64) : ℕ → ℕ
  | 0 => 0
  | bytes + 1 =>
      countSet memory buffer bytes + (memory (buffer + BitVec.ofNat 64 bytes)).cpop.toNat

private theorem count_getMsbD : ∀ value : Byte,
    Nat.count (fun bit => value.getMsbD bit = true) 8 = value.cpop.toNat := by
  decide +kernel

theorem countSet_eq_count (memory : Memory) (buffer : Word64) (bytes : ℕ) :
    countSet memory buffer bytes =
      Nat.count (fun index => bitAt memory buffer index = true) (8 * bytes) := by
  induction bytes with
  | zero => rfl
  | succ bytes ih =>
      have hbyte : ∀ bit < 8, bitAt memory buffer (8 * bytes + bit) =
          (memory (buffer + BitVec.ofNat 64 bytes)).getMsbD bit := by
        intro bit hbit
        rw [bitAt, show (8 * bytes + bit) / 8 = bytes by omega,
          show (8 * bytes + bit) % 8 = bit by omega]
      rw [countSet, ih, Nat.mul_succ, Nat.count_add, ← count_getMsbD]
      congr 1
      rw [Nat.count_eq_card_filter_range, Nat.count_eq_card_filter_range]
      congr 1
      apply Finset.filter_congr
      intro bit hbit
      rw [hbyte bit (Finset.mem_range.mp hbit)]

end RedX.BitArray
