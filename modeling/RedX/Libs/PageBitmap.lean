import RedX.Core.BitArray

/-!
# `class bitmap`

The page bitmap of `libs/math.cpp`: `size` bytes at `buffer`, one bit for each
page.  Both accessors compare the index with `size * 8` by `>`, so they also
accept the index `size * 8` itself, whose bit lies in the byte after the buffer.
-/

namespace RedX.PageBitmap

open RedX.MachineWord
open RedX.ByteMemory
open RedX.BitArray

structure Bitmap where
  size : Word64
  buffer : Word64

/-- `bitmap::operator[]` -/
def Bitmap.get (bitmap : Bitmap) (memory : Memory) (index : Word64) : Bool :=
  if index > bitmap.size * 8 then false
  else
    let byteIndex := index / 8
    let bitIndex := index % 8
    let bitIndexer : Byte := 0b10000000#8 >>> bitIndex.toNat
    if memory (bitmap.buffer + byteIndex) &&& bitIndexer > 0 then true else false

/-- `bitmap::set`: the returned flag and the memory after the call. -/
def Bitmap.set (bitmap : Bitmap) (memory : Memory) (index : Word64) (value : Bool) :
    Bool × Memory :=
  if index > bitmap.size * 8 then (false, memory)
  else
    let byteIndex := index / 8
    let bitIndex := index % 8
    let bitIndexer : Byte := 0b10000000#8 >>> bitIndex.toNat
    let address := bitmap.buffer + byteIndex
    let cleared := store8 memory address (memory address &&& ~~~bitIndexer)
    if value then (true, store8 cleared address (cleared address ||| bitIndexer))
    else (true, cleared)

/-- `size * 8` does not wrap; every bitmap that `readMap` builds has at most
`2^49` bytes. -/
def Bitmap.WellSized (bitmap : Bitmap) : Prop := bitmap.size.toNat ≤ 2 ^ 49

variable {bitmap : Bitmap} {memory : Memory} {index : Word64} {other : ℕ}

/-- The last index that the comparison accepts; `size * 8` may wrap. -/
def Bitmap.limit (bitmap : Bitmap) : ℕ := (bitmap.size * 8).toNat

theorem gt_limit_iff : index > bitmap.size * 8 ↔ bitmap.limit < index.toNat := BitVec.lt_def

theorem limit_eq (hsize : bitmap.WellSized) : bitmap.limit = 8 * bitmap.size.toNat := by
  unfold Bitmap.WellSized at hsize
  rw [Bitmap.limit, BitVec.toNat_mul]
  change bitmap.size.toNat * 8 % 2 ^ 64 = _
  omega

theorem limit_lt (bitmap : Bitmap) : bitmap.limit < 2 ^ 64 := (bitmap.size * 8).isLt

private theorem toNat_mod_eight (index : Word64) : (index % 8).toNat = index.toNat % 8 := by
  rw [BitVec.toNat_umod]
  rfl

private theorem byteIndex_eq (index : Word64) :
    index / 8 = BitVec.ofNat 64 (index.toNat / 8) := by
  apply BitVec.eq_of_toNat_eq
  rw [BitVec.toNat_udiv, BitVec.toNat_ofNat]
  change index.toNat / 8 = _
  have := index.isLt
  omega

/-! ## For every size -/

theorem get_of_limit_lt (houtside : bitmap.limit < index.toNat) :
    bitmap.get memory index = false :=
  if_pos (gt_limit_iff.mpr houtside)

theorem get_of_le_limit (hinside : index.toNat ≤ bitmap.limit) :
    bitmap.get memory index = bitAt memory bitmap.buffer index.toNat := by
  have hle : ¬ index > bitmap.size * 8 := by
    rw [gt_limit_iff]
    omega
  have hbit := and_bitMask_pos_iff (memory (bitmap.buffer + index / 8))
    (show index.toNat % 8 < 8 by omega)
  rw [Bitmap.get, if_neg hle]
  simp only [toNat_mod_eight, bitAt, ← byteIndex_eq]
  change (if _ &&& bitMask (index.toNat % 8) > 0 then true else false) = _
  simp only [hbit, Bool.if_false_right, Bool.and_true, Bool.decide_eq_true]

theorem set_of_limit_lt (houtside : bitmap.limit < index.toNat) (value : Bool) :
    bitmap.set memory index value = (false, memory) :=
  if_pos (gt_limit_iff.mpr houtside)

theorem set_of_le_limit (hinside : index.toNat ≤ bitmap.limit) (value : Bool) :
    bitmap.set memory index value =
      (true, if value then
          setBit (clearBit memory bitmap.buffer index.toNat) bitmap.buffer index.toNat
        else clearBit memory bitmap.buffer index.toNat) := by
  have hle : ¬ index > bitmap.size * 8 := by
    rw [gt_limit_iff]
    omega
  rw [Bitmap.set, if_neg hle]
  simp only [toNat_mod_eight, byteIndex_eq]
  cases value <;> rfl

/-- `set` changes the bit it is asked to change and no other one. -/
theorem bitAt_set_of_le_limit (hinside : index.toNat ≤ bitmap.limit) (value : Bool)
    (hother : other < 2 ^ 64) :
    bitAt (bitmap.set memory index value).2 bitmap.buffer other =
      if other = index.toNat then value else bitAt memory bitmap.buffer other := by
  rw [set_of_le_limit hinside]
  cases value with
  | false =>
      change bitAt (clearBit memory bitmap.buffer index.toNat) bitmap.buffer other = _
      rw [bitAt_clearBit _ _ index.isLt hother]
      by_cases hsame : other = index.toNat <;> simp [hsame]
  | true =>
      change bitAt (setBit _ bitmap.buffer index.toNat) bitmap.buffer other = _
      rw [bitAt_setBit _ _ index.isLt hother, bitAt_clearBit _ _ index.isLt hother]
      by_cases hsame : other = index.toNat <;> simp [hsame]

/-! ## Where `size * 8` does not wrap -/

theorem get_of_gt (hsize : bitmap.WellSized) (houtside : 8 * bitmap.size.toNat < index.toNat) :
    bitmap.get memory index = false :=
  get_of_limit_lt (by rwa [limit_eq hsize])

theorem get_eq_bitAt (hsize : bitmap.WellSized) (hinside : index.toNat ≤ 8 * bitmap.size.toNat) :
    bitmap.get memory index = bitAt memory bitmap.buffer index.toNat :=
  get_of_le_limit (by rwa [limit_eq hsize])

theorem set_of_gt (hsize : bitmap.WellSized) (houtside : 8 * bitmap.size.toNat < index.toNat)
    (value : Bool) : bitmap.set memory index value = (false, memory) :=
  set_of_limit_lt (by rwa [limit_eq hsize]) value

theorem set_of_le (hsize : bitmap.WellSized) (hinside : index.toNat ≤ 8 * bitmap.size.toNat)
    (value : Bool) :
    bitmap.set memory index value =
      (true, if value then
          setBit (clearBit memory bitmap.buffer index.toNat) bitmap.buffer index.toNat
        else clearBit memory bitmap.buffer index.toNat) :=
  set_of_le_limit (by rwa [limit_eq hsize]) value

theorem bitAt_set (hsize : bitmap.WellSized) (hinside : index.toNat ≤ 8 * bitmap.size.toNat)
    (value : Bool) (hother : other < 2 ^ 64) :
    bitAt (bitmap.set memory index value).2 bitmap.buffer other =
      if other = index.toNat then value else bitAt memory bitmap.buffer other :=
  bitAt_set_of_le_limit (by rwa [limit_eq hsize]) value hother

/-! ## An array of booleans -/

theorem agreeOutside_set (bitmap : Bitmap) (memory : Memory) (index : Word64) (value : Bool) :
    AgreeOutside {bitmap.buffer + index / 8} memory (bitmap.set memory index value).2 := by
  have hstore : ∀ (before : Memory) (byte : Byte), AgreeOutside {bitmap.buffer + index / 8} before
      (store8 before (bitmap.buffer + index / 8) byte) := by
    intro before byte address houtside
    rw [store8_apply, if_neg (by simpa using houtside)]
  rw [Bitmap.set]
  split_ifs
  · exact AgreeOutside.refl _ memory
  · exact (hstore memory _).trans (hstore _ _)
  · exact hstore memory _

theorem le_limit_of_lt (hindex : index < bitmap.size * 8) : index.toNat ≤ bitmap.limit :=
  (BitVec.lt_def.mp hindex).le

/-- Below `size * 8` the bitmap is an array of booleans, in which `set` stores one entry and
changes no byte but the one of this entry. -/
theorem bitmap_is_array (memory : Memory) {i j : Word64} (value : Bool)
    (hi : i < bitmap.size * 8) (hj : j < bitmap.size * 8) :
    (bitmap.set memory i value).1 = true ∧
      bitmap.get (bitmap.set memory i value).2 i = value ∧
      (j ≠ i → bitmap.get (bitmap.set memory i value).2 j = bitmap.get memory j) ∧
      AgreeOutside {bitmap.buffer + i / 8} memory (bitmap.set memory i value).2 := by
  have hinside := le_limit_of_lt hi
  refine ⟨?_, ?_, fun hne => ?_, agreeOutside_set bitmap memory i value⟩
  · rw [set_of_le_limit hinside]
  · rw [get_of_le_limit hinside, bitAt_set_of_le_limit hinside value i.isLt, if_pos rfl]
  · have hother : j.toNat ≠ i.toNat := fun hsame => hne (BitVec.eq_of_toNat_eq hsame)
    rw [get_of_le_limit (le_limit_of_lt hj), bitAt_set_of_le_limit hinside value j.isLt,
      if_neg hother, get_of_le_limit (le_limit_of_lt hj)]

/-- Bits 3 and 4 of a byte that is `0xFF`. -/
theorem bitmap_is_array_sameByte :
    let bitmap : Bitmap := ⟨1, 0x1000⟩
    let memory : Memory := fun _ => 0xFF
    (bitmap.set memory 3 false).1 = true ∧
      bitmap.get (bitmap.set memory 3 false).2 3 = false ∧
      bitmap.get (bitmap.set memory 3 false).2 4 = bitmap.get memory 4 ∧
      AgreeOutside {0x1000 + 3 / 8} memory (bitmap.set memory 3 false).2 := by
  intro bitmap memory
  obtain ⟨hreturns, hset, hothers, hbytes⟩ :=
    @bitmap_is_array bitmap memory 3 4 false (by decide) (by decide)
  exact ⟨hreturns, hset, hothers (by decide), hbytes⟩

end RedX.PageBitmap
