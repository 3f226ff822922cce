import Mathlib.Data.Set.Lattice
import Mathlib.Order.CompletePartialOrder
import Mathlib.Tactic.IntervalCases
import RedX.Core.MachineWord

/-!
# Byte-addressed memory

A 64-bit physical memory is a total function from addresses to bytes.  Every
store is one range update, described by the offset of an address from the base
of the range, so address arithmetic wraps exactly as the machine's does and a
frame argument is a single comparison of offsets.
-/

namespace RedX.ByteMemory

open RedX.MachineWord

abbrev Memory := Word64 → Byte

/-- Distance from `base` up to `address`, modulo `2^64`. -/
def offset (base address : Word64) : ℕ := (address - base).toNat

/-- Replace the `length` bytes from `base` on; byte `i` becomes `bytes i`. -/
def store (memory : Memory) (base : Word64) (length : ℕ) (bytes : ℕ → Byte) : Memory :=
  fun address =>
    if offset base address < length then bytes (offset base address) else memory address

theorem store_of_offset_lt {memory : Memory} {base address : Word64} {length : ℕ}
    {bytes : ℕ → Byte} (hinside : offset base address < length) :
    store memory base length bytes address = bytes (offset base address) :=
  if_pos hinside

theorem store_of_le_offset {memory : Memory} {base address : Word64} {length : ℕ}
    {bytes : ℕ → Byte} (houtside : length ≤ offset base address) :
    store memory base length bytes address = memory address :=
  if_neg (by omega)

theorem offset_add_ofNat (base : Word64) {index : ℕ} (hindex : index < 2 ^ 64) :
    offset base (base + BitVec.ofNat 64 index) = index := by
  have hcancel : base + BitVec.ofNat 64 index - base = BitVec.ofNat 64 index := by
    rw [BitVec.add_comm, BitVec.add_sub_cancel]
  rw [offset, hcancel, BitVec.toNat_ofNat, Nat.mod_eq_of_lt hindex]

@[simp]
theorem offset_self (base : Word64) : offset base base = 0 := by
  simp [offset]

theorem add_offset (base address : Word64) :
    base + BitVec.ofNat 64 (offset base address) = address := by
  rw [offset, BitVec.ofNat_toNat, BitVec.setWidth_eq, BitVec.add_comm, BitVec.sub_add_cancel]

theorem offset_lt (base address : Word64) : offset base address < 2 ^ 64 :=
  (address - base).isLt

theorem offset_add (base address : Word64) {distance : ℕ} (hdistance : distance < 2 ^ 64) :
    offset (base + BitVec.ofNat 64 distance) address =
      (offset base address + 2 ^ 64 - distance) % 2 ^ 64 := by
  have hstart := base.isLt
  have haddress := address.isLt
  unfold offset
  rw [BitVec.toNat_sub, BitVec.toNat_sub, BitVec.toNat_add, BitVec.toNat_ofNat,
    Nat.mod_eq_of_lt hdistance]
  omega

/-- Distance between two addresses that are reached from one base. -/
theorem offset_add_add (base : Word64) {left right : ℕ} (hle : left ≤ right)
    (hright : right < 2 ^ 64) :
    offset (base + BitVec.ofNat 64 left) (base + BitVec.ofNat 64 right) = right - left := by
  have hsplit : base + BitVec.ofNat 64 right =
      base + BitVec.ofNat 64 left + BitVec.ofNat 64 (right - left) := by
    rw [BitVec.add_assoc, ← BitVec.ofNat_add, Nat.add_sub_cancel' hle]
  rw [hsplit, offset_add_ofNat _ (by omega)]

/-- Two ranges that do not meet: no offset of one is an offset of the other. -/
def Apart (left : Word64) (leftLength : ℕ) (right : Word64) (rightLength : ℕ) : Prop :=
  ∀ address, offset left address < leftLength → rightLength ≤ offset right address

theorem Apart.symm {left right : Word64} {leftLength rightLength : ℕ}
    (hapart : Apart left leftLength right rightLength) :
    Apart right rightLength left leftLength := by
  intro address hright
  by_contra hleft
  have hother := hapart address (by omega)
  omega

/-! ## Frames -/

/-- The two memories agree on every byte outside `touched`. -/
def AgreeOutside (touched : Set Word64) (memory memory' : Memory) : Prop :=
  ∀ address, address ∉ touched → memory' address = memory address

theorem AgreeOutside.refl (touched : Set Word64) (memory : Memory) :
    AgreeOutside touched memory memory := fun _ _ => rfl

theorem AgreeOutside.trans {touched : Set Word64} {first second third : Memory}
    (hleft : AgreeOutside touched first second) (hright : AgreeOutside touched second third) :
    AgreeOutside touched first third := by
  intro address houtside
  rw [hright address houtside, hleft address houtside]

theorem AgreeOutside.mono {touched wider : Set Word64} {memory memory' : Memory}
    (hagree : AgreeOutside touched memory memory') (hsubset : touched ⊆ wider) :
    AgreeOutside wider memory memory' :=
  fun address houtside => hagree address fun hinside => houtside (hsubset hinside)

theorem agreeOutside_store {touched : Set Word64} (memory : Memory) {base : Word64}
    {length : ℕ} (bytes : ℕ → Byte)
    (hinside : ∀ address, offset base address < length → address ∈ touched) :
    AgreeOutside touched memory (store memory base length bytes) := by
  intro address houtside
  apply store_of_le_offset
  by_contra hoffset
  exact houtside (hinside address (by omega))

/-! ## Little-endian words -/

/-- Byte `index` of a value, least significant byte first. -/
def byteOf {width : ℕ} (value : BitVec width) (index : ℕ) : Byte :=
  value.extractLsb' (8 * index) 8

def load64 (memory : Memory) (address : Word64) : Word64 :=
  memory (address + 7#64) ++ memory (address + 6#64) ++ memory (address + 5#64) ++
    memory (address + 4#64) ++ memory (address + 3#64) ++ memory (address + 2#64) ++
    memory (address + 1#64) ++ memory address

def store64 (memory : Memory) (address value : Word64) : Memory :=
  store memory address 8 (byteOf value)

def store32 (memory : Memory) (address : Word64) (value : Word32) : Memory :=
  store memory address 4 (byteOf value)

def store8 (memory : Memory) (address : Word64) (value : Byte) : Memory :=
  store memory address 1 fun _ => value

theorem store8_apply (memory : Memory) (target address : Word64) (value : Byte) :
    store8 memory target value address = if address = target then value else memory address := by
  have hoffset : offset target address < 1 ↔ address = target := by
    constructor
    · intro hzero
      rw [← add_offset target address, show offset target address = 0 by omega]
      exact BitVec.add_zero target
    · rintro rfl
      simp
  by_cases heq : address = target
  · rw [if_pos heq, store8, store_of_offset_lt (hoffset.mpr heq)]
  · rw [if_neg heq, store8, store_of_le_offset]
    have := mt hoffset.mp heq
    omega

theorem store_zero (memory : Memory) (base : Word64) (bytes : ℕ → Byte) :
    store memory base 0 bytes = memory := by
  funext address
  exact store_of_le_offset (Nat.zero_le _)

/-- A range filled byte by byte. -/
theorem store8_store (memory : Memory) (base : Word64) (value : Byte) {count : ℕ}
    (hcount : count < 2 ^ 64) :
    store8 (store memory base count fun _ => value) (base + BitVec.ofNat 64 count) value =
      store memory base (count + 1) fun _ => value := by
  funext address
  have hoffset := offset_add_ofNat base hcount
  rw [store8_apply]
  by_cases hlast : address = base + BitVec.ofNat 64 count
  · rw [if_pos hlast, hlast, store_of_offset_lt (by omega)]
  · have hne : offset base address ≠ count := by
      intro hsame
      rw [← hsame, add_offset] at hlast
      exact hlast rfl
    rw [if_neg hlast]
    unfold store
    split_ifs <;> first | rfl | omega

theorem load64_congr {memory memory' : Memory} {address : Word64}
    (hagree : ∀ index < 8, memory (address + BitVec.ofNat 64 index) =
      memory' (address + BitVec.ofNat 64 index)) :
    load64 memory address = load64 memory' address := by
  have h0 := hagree 0 (by omega)
  have h1 := hagree 1 (by omega)
  have h2 := hagree 2 (by omega)
  have h3 := hagree 3 (by omega)
  have h4 := hagree 4 (by omega)
  have h5 := hagree 5 (by omega)
  have h6 := hagree 6 (by omega)
  have h7 := hagree 7 (by omega)
  rw [BitVec.add_zero] at h0
  simp only [load64, h0, h1, h2, h3, h4, h5, h6, h7]

/-- A word is the concatenation of its eight bytes. -/
theorem append_byteOf (value : Word64) :
    (byteOf value 7 ++ byteOf value 6 ++ byteOf value 5 ++ byteOf value 4 ++
      byteOf value 3 ++ byteOf value 2 ++ byteOf value 1 ++ byteOf value 0 : Word64) =
      value := by
  simp only [byteOf]
  repeat rw [BitVec.extractLsb'_append_extractLsb'_eq_extractLsb' (by rfl)]
  simp

theorem load64_of_bytes {memory : Memory} {address value : Word64}
    (hbytes : ∀ index < 8, memory (address + BitVec.ofNat 64 index) = byteOf value index) :
    load64 memory address = value := by
  have hstored : load64 memory address =
      load64 (fun byte => byteOf value (offset address byte)) address := by
    apply load64_congr
    intro index hindex
    rw [hbytes index hindex, offset_add_ofNat address (by omega)]
  rw [hstored, load64]
  have hoffset : ∀ index : ℕ, index < 8 →
      offset address (address + BitVec.ofNat 64 index) = index :=
    fun index hindex => offset_add_ofNat address (by omega)
  have h1 := hoffset 1 (by omega)
  have h2 := hoffset 2 (by omega)
  have h3 := hoffset 3 (by omega)
  have h4 := hoffset 4 (by omega)
  have h5 := hoffset 5 (by omega)
  have h6 := hoffset 6 (by omega)
  have h7 := hoffset 7 (by omega)
  simp only [h1, h2, h3, h4, h5, h6, h7, offset_self]
  exact append_byteOf value

theorem byteOf_append_zero {width : ℕ} (high : BitVec width) (low : Byte) :
    byteOf (high ++ low) 0 = low :=
  BitVec.extractLsb'_append_eq_right

theorem byteOf_append_succ {width : ℕ} (high : BitVec width) (low : Byte) (index : ℕ) :
    byteOf (high ++ low) (index + 1) = byteOf high index := by
  rw [byteOf, BitVec.extractLsb'_append_eq_of_le (by omega), byteOf, Nat.mul_add_one,
    Nat.add_sub_cancel]

theorem byteOf_load64 (memory : Memory) (address : Word64) {index : ℕ} (hindex : index < 8) :
    byteOf (load64 memory address) index = memory (address + BitVec.ofNat 64 index) := by
  unfold load64
  interval_cases index
  case «0» => rw [byteOf_append_zero, BitVec.add_zero]
  case «7» =>
    repeat rw [byteOf_append_succ]
    exact BitVec.extractLsb'_eq_self
  all_goals
    repeat rw [byteOf_append_succ]
    exact byteOf_append_zero _ _

@[simp]
theorem load64_store64 (memory : Memory) (address value : Word64) :
    load64 (store64 memory address value) address = value := by
  apply load64_of_bytes
  intro index hindex
  have hoffset := offset_add_ofNat address (show index < 2 ^ 64 by omega)
  rw [store64, store_of_offset_lt (by omega), hoffset]

/-- A load sees nothing of a store to a range apart from it. -/
theorem load64_store_of_apart {memory : Memory} {base address : Word64} {length : ℕ}
    {bytes : ℕ → Byte} (hapart : Apart address 8 base length) :
    load64 (store memory base length bytes) address = load64 memory address := by
  apply load64_congr
  intro index hindex
  apply store_of_le_offset
  apply hapart
  rw [offset_add_ofNat address (by omega)]
  exact hindex

/-- A load inside a range filled with zero reads zero. -/
theorem load64_store_zero {memory : Memory} {base address : Word64} {length : ℕ}
    (hinside : ∀ index < 8, offset base (address + BitVec.ofNat 64 index) < length) :
    load64 (store memory base length fun _ => 0) address = 0 := by
  apply load64_of_bytes
  intro index hindex
  rw [store_of_offset_lt (hinside index hindex)]
  simp [byteOf]

/-! ## Words of four bytes -/

def load32 (memory : Memory) (address : Word64) : Word32 :=
  memory (address + 3#64) ++ memory (address + 2#64) ++ memory (address + 1#64) ++ memory address

theorem load32_congr {memory memory' : Memory} {address : Word64}
    (hagree : ∀ index < 4, memory (address + BitVec.ofNat 64 index) =
      memory' (address + BitVec.ofNat 64 index)) :
    load32 memory address = load32 memory' address := by
  have h0 := hagree 0 (by omega)
  have h1 := hagree 1 (by omega)
  have h2 := hagree 2 (by omega)
  have h3 := hagree 3 (by omega)
  rw [BitVec.add_zero] at h0
  simp only [load32, h0, h1, h2, h3]

theorem byteOf_load32 (memory : Memory) (address : Word64) {index : ℕ} (hindex : index < 4) :
    byteOf (load32 memory address) index = memory (address + BitVec.ofNat 64 index) := by
  unfold load32
  interval_cases index
  case «0» => rw [byteOf_append_zero, BitVec.add_zero]
  case «3» =>
    repeat rw [byteOf_append_succ]
    exact BitVec.extractLsb'_eq_self
  all_goals
    repeat rw [byteOf_append_succ]
    exact byteOf_append_zero _ _

/-- A word is determined by its four bytes. -/
theorem eq_of_byteOf {left right : Word32}
    (hbytes : ∀ index < 4, byteOf left index = byteOf right index) : left = right := by
  apply BitVec.eq_of_getLsbD_eq
  intro bit hbit
  have hbyte := congrArg (fun byte => byte.getLsbD (bit % 8)) (hbytes (bit / 8) (by omega))
  have hplace : 8 * (bit / 8) + bit % 8 = bit := by omega
  have hlow : bit % 8 < 8 := Nat.mod_lt _ (by decide)
  simpa [byteOf, BitVec.getLsbD_extractLsb', hplace, hlow] using hbyte

@[simp]
theorem load32_store32 (memory : Memory) (address : Word64) (value : Word32) :
    load32 (store32 memory address value) address = value := by
  apply eq_of_byteOf
  intro index hindex
  have hoffset := offset_add_ofNat address (show index < 2 ^ 64 by omega)
  rw [byteOf_load32 _ _ hindex, store32, store_of_offset_lt (by omega), hoffset]

theorem load32_store_of_apart {memory : Memory} {base address : Word64} {length : ℕ}
    {bytes : ℕ → Byte} (hapart : Apart address 4 base length) :
    load32 (store memory base length bytes) address = load32 memory address := by
  apply load32_congr
  intro index hindex
  apply store_of_le_offset
  apply hapart
  rw [offset_add_ofNat address (by omega)]
  exact hindex

end RedX.ByteMemory
