import RedX.Core.ByteMemory

/-!
# Word arrays

A range of memory read as an array of 64-bit words.  Storing a word changes that
word and no other; clearing a block of words clears those and no other.
-/

namespace RedX.WordArray

open RedX.MachineWord
open RedX.ByteMemory

/-- Address of word `index`. -/
def slot (base : Word64) (index : ℕ) : Word64 := base + BitVec.ofNat 64 (8 * index)

def wordAt (memory : Memory) (base : Word64) (index : ℕ) : Word64 :=
  load64 memory (slot base index)

/-- The bytes of words `first` to `first + count - 1`. -/
def words (base : Word64) (first count : ℕ) : Set Word64 :=
  {address | 8 * first ≤ offset base address ∧ offset base address < 8 * (first + count)}

variable {memory memory' : Memory} {base : Word64} {index other first count : ℕ}

/-- The eight bytes of a word, by their offset from the start of the array. -/
theorem offset_slot_lt_iff (address : Word64) (hindex : 8 * index + 8 ≤ 2 ^ 64) :
    offset (slot base index) address < 8 ↔ address ∈ words base index 1 := by
  have hoffset := offset_lt base address
  rw [slot, offset_add base address (by omega)]
  simp only [words, Set.mem_ofPred_eq]
  omega

theorem apart_slot (hindex : 8 * index + 8 ≤ 2 ^ 64) (hother : 8 * other + 8 ≤ 2 ^ 64)
    (hne : other ≠ index) : Apart (slot base other) 8 (slot base index) 8 := by
  intro address hmem
  by_contra hlt
  rw [offset_slot_lt_iff address hother] at hmem
  rw [not_le, offset_slot_lt_iff address hindex] at hlt
  simp only [words, Set.mem_ofPred_eq] at hmem hlt
  omega

theorem wordAt_store64 (memory : Memory) (base value : Word64)
    (hindex : 8 * index + 8 ≤ 2 ^ 64) (hother : 8 * other + 8 ≤ 2 ^ 64) :
    wordAt (store64 memory (slot base index) value) base other =
      if other = index then value else wordAt memory base other := by
  by_cases heq : other = index
  · rw [if_pos heq, heq, wordAt, load64_store64]
  · rw [if_neg heq, wordAt, store64, load64_store_of_apart (apart_slot hindex hother heq), wordAt]

theorem store64_agreeOutside (memory : Memory) (base value : Word64)
    (hindex : 8 * index + 8 ≤ 2 ^ 64) :
    AgreeOutside (words base index 1) memory (store64 memory (slot base index) value) :=
  agreeOutside_store memory _ fun address hoffset =>
    (offset_slot_lt_iff address hindex).mp hoffset

/-- A word whose bytes are not touched keeps its value. -/
theorem wordAt_of_agreeOutside {touched : Set Word64} (hindex : 8 * index + 8 ≤ 2 ^ 64)
    (hagree : AgreeOutside touched memory memory')
    (hdisjoint : ∀ address ∈ words base index 1, address ∉ touched) :
    wordAt memory' base index = wordAt memory base index := by
  apply load64_congr
  intro byte hbyte
  apply hagree
  apply hdisjoint
  rw [← offset_slot_lt_iff _ hindex, offset_add_ofNat _ (by omega)]
  exact hbyte

/-- Set every byte of `count` words to zero. -/
def clearWords (memory : Memory) (base : Word64) (first count : ℕ) : Memory :=
  store memory (slot base first) (8 * count) fun _ => 0

theorem clearWords_agreeOutside (memory : Memory) (base : Word64) (first count : ℕ)
    (hend : 8 * (first + count) ≤ 2 ^ 64) :
    AgreeOutside (words base first count) memory (clearWords memory base first count) := by
  apply agreeOutside_store
  intro address hmem
  have hoffset := offset_lt base address
  rw [slot, offset_add base address (by omega)] at hmem
  constructor <;> omega

theorem wordAt_clearWords (memory : Memory) (base : Word64) (first count : ℕ)
    (hend : 8 * (first + count) ≤ 2 ^ 64) (hother : 8 * other + 8 ≤ 2 ^ 64) :
    wordAt (clearWords memory base first count) base other =
      if first ≤ other ∧ other < first + count then 0 else wordAt memory base other := by
  by_cases hinside : first ≤ other ∧ other < first + count
  · rw [if_pos hinside]
    apply load64_store_zero
    intro byte hbyte
    have hplace : slot base other + BitVec.ofNat 64 byte =
        base + BitVec.ofNat 64 (8 * other + byte) := by
      rw [slot, BitVec.add_assoc, ← BitVec.ofNat_add]
    rw [slot, offset_add _ _ (by omega), hplace, offset_add_ofNat base (by omega)]
    omega
  · rw [if_neg hinside]
    apply wordAt_of_agreeOutside hother (clearWords_agreeOutside memory base first count hend)
    intro address hmem
    simp only [words, Set.mem_ofPred_eq] at hmem ⊢
    omega

end RedX.WordArray
