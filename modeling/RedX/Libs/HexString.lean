import RedX.Core.ByteMemory
import RedX.Core.CountedLoop

/-!
# Hexadecimal strings

`toHString` of `libs/string.cpp` writes two digits for each byte it looks at,
from the end of a static buffer towards its start.  Its loop runs `size` times
although the argument has only `(size + 1) / 2` bytes, so it also reads what
follows the argument on the stack and writes in front of the buffer.
-/

namespace RedX.HexString

open RedX.MachineWord
open RedX.ByteMemory
open RedX.CountedLoop

/-- `tmp + (tmp > 9 ? 55 : '0')` -/
def hexDigit (tmp : Byte) : Byte := tmp + if tmp > 9 then 55 else 48

/-- Address of element `index` of an array of bytes. -/
def element (buffer : Word64) (index : ℤ) : Word64 := buffer + BitVec.ofInt 64 index

/-- The body of every `toHString`: `valPtr i` is byte `i` from the address of the
argument on. -/
def writeHex (output : Word64) (size : Byte) (valPtr : ℕ → Byte) (memory : Memory) : Memory :=
  let digits := forLoop size.toNat (fun i memory =>
    let high := (valPtr i &&& 0xf0) >>> 4
    let memory := store8 memory (element output (size.toNat - (i * 2 + 1))) (hexDigit high)
    let low := valPtr i &&& 0x0f
    store8 memory (element output (size.toNat - i * 2)) (hexDigit low)) memory
  store8 digits (element output (size.toNat + 1)) 0

/-- `toHString(uint64_t)` with its static buffer at `hexOutput64`; `beyond i` is the
byte of the stack at distance `i` from the argument. -/
def toHString (hexOutput64 : Word64) (beyond : ℕ → Byte) (number : Word64)
    (memory : Memory) : Memory :=
  writeHex hexOutput64 15 (fun i => if i < 8 then byteOf number i else beyond i) memory

/-- The characters from `str` up to the first zero, `fuel` of them at most. -/
def stringAt (memory : Memory) (str : Word64) : ℕ → List Byte
  | 0 => []
  | fuel + 1 =>
      if memory str = 0 then [] else memory str :: stringAt memory (str + 1) fuel

/-- The bytes that `writeHex` can change: indices `1 - size` to `size + 1`. -/
def written (output : Word64) (size : ℕ) : Set Word64 :=
  {address | ∃ index : ℤ, 1 - size ≤ index ∧ index ≤ size + 1 ∧
    address = element output index}

private theorem store8_agreeOutside {output : Word64} {size : ℕ} (memory : Memory) (index : ℤ)
    (value : Byte) (hlow : 1 - (size : ℤ) ≤ index) (hhigh : index ≤ size + 1) :
    AgreeOutside (written output size) memory (store8 memory (element output index) value) := by
  apply agreeOutside_store
  intro address hoffset
  refine ⟨index, hlow, hhigh, ?_⟩
  rw [← add_offset (element output index) address, show offset _ address = 0 by omega]
  exact BitVec.add_zero _

theorem writeHex_agreeOutside (output : Word64) (size : Byte) (valPtr : ℕ → Byte)
    (memory : Memory) :
    AgreeOutside (written output size.toNat) memory (writeHex output size valPtr memory) := by
  unfold writeHex
  refine AgreeOutside.trans ?_ (store8_agreeOutside _ _ 0 (by omega) (by omega))
  apply forLoop_invariant (fun _ => AgreeOutside (written output size.toNat) memory)
  · exact AgreeOutside.refl _ _
  · intro i hi current hcurrent
    have hhigh : AgreeOutside (written output size.toNat) memory _ :=
      hcurrent.trans (store8_agreeOutside current (size.toNat - (i * 2 + 1))
        (hexDigit ((valPtr i &&& 0xf0) >>> 4)) (by omega) (by omega))
    exact hhigh.trans (store8_agreeOutside _ (size.toNat - i * 2) _ (by omega) (by omega))

/-- Those bytes lie around the start of the buffer. -/
theorem toNat_of_mem_written {output address : Word64} {size : ℕ} (hlow : size ≤ output.toNat)
    (hhigh : output.toNat + size + 1 < 2 ^ 64) (hmem : address ∈ written output size) :
    output.toNat + 1 ≤ address.toNat + size ∧ address.toNat ≤ output.toNat + size + 1 := by
  obtain ⟨index, hstart, hfinish, rfl⟩ := hmem
  have hvalue : (element output index).toNat = (output.toNat + index).toNat := by
    rw [element, BitVec.toNat_add, BitVec.toNat_ofInt]
    omega
  rw [hvalue]
  omega

end RedX.HexString
