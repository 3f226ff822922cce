import RedX.Core.AccessLog
import RedX.Core.Numeral
import RedX.Core.TerminatedString
import RedX.Libs.HexString

/-!
# Hexadecimal formatting

The four `toHString` differ in the width of the argument and in `size`.  The digits end up
in the right cells for each of them; only for a byte does the loop stop where the argument
and the buffer end.
-/

namespace RedX.HexFormat

open RedX.MachineWord
open RedX.ByteMemory
open RedX.CountedLoop
open RedX.AccessLog
open RedX.Numeral
open RedX.TerminatedString
open RedX.HexString

/-- The bytes from the address of the argument on. -/
def argument {bits : ℕ} (number : BitVec bits) (beyond : ℕ → Byte) (i : ℕ) : Byte :=
  if i < bits / 8 then byteOf number i else beyond i

/-- `toHString(uint32_t)` -/
def toHString32 (hexOutput32 : Word64) (beyond : ℕ → Byte) (number : Word32)
    (memory : Memory) : Memory :=
  writeHex hexOutput32 7 (argument number beyond) memory

/-- `toHString(uint16_t)` -/
def toHString16 (hexOutput16 : Word64) (beyond : ℕ → Byte) (number : BitVec 16)
    (memory : Memory) : Memory :=
  writeHex hexOutput16 3 (argument number beyond) memory

/-- `toHString(uint8_t)` -/
def toHString8 (hexOutput8 : Word64) (beyond : ℕ → Byte) (number : Byte)
    (memory : Memory) : Memory :=
  writeHex hexOutput8 1 (argument number beyond) memory

/-- The four overloads. -/
inductive Overload where
  | uint8
  | uint16
  | uint32
  | uint64
  deriving DecidableEq

def Overload.bits : Overload → ℕ
  | .uint8 => 8
  | .uint16 => 16
  | .uint32 => 32
  | .uint64 => 64

/-- The local `size`. -/
def Overload.size : Overload → Byte
  | .uint8 => 1
  | .uint16 => 3
  | .uint32 => 7
  | .uint64 => 15

def Overload.toHString (overload : Overload) (output : Word64) (beyond : ℕ → Byte)
    (number : BitVec overload.bits) (memory : Memory) : Memory :=
  match overload with
  | .uint8 => toHString8 output beyond number memory
  | .uint16 => toHString16 output beyond number memory
  | .uint32 => toHString32 output beyond number memory
  | .uint64 => HexString.toHString output beyond number memory

/-- A byte of the argument or an index of the buffer. -/
inductive Place where
  | argument (byte : ℕ)
  | output (index : ℤ)
  deriving DecidableEq

/-- The body of the loop of `writeHex` with what it reads and writes. -/
def bodyLogged (output : Word64) (size : Byte) (valPtr : ℕ → Byte) (i : ℕ) (memory : Memory) :
    Logged Place Memory := do
  let high ← access (.argument i) ((valPtr i &&& 0xf0) >>> 4)
  let memory ← access (.output (size.toNat - (i * 2 + 1)))
    (store8 memory (element output (size.toNat - (i * 2 + 1))) (hexDigit high))
  let low ← access (.argument i) (valPtr i &&& 0x0f)
  access (.output (size.toNat - i * 2))
    (store8 memory (element output (size.toNat - i * 2)) (hexDigit low))

def writeHexLogged (output : Word64) (size : Byte) (valPtr : ℕ → Byte) (memory : Memory) :
    Logged Place Memory := do
  let digits ← forLogged size.toNat (bodyLogged output size valPtr) memory
  access (.output (size.toNat + 1)) (store8 digits (element output (size.toNat + 1)) 0)

def Overload.toHStringLogged (overload : Overload) (output : Word64) (beyond : ℕ → Byte)
    (number : BitVec overload.bits) (memory : Memory) : Logged Place Memory :=
  writeHexLogged output overload.size (argument number beyond) memory

variable {overload : Overload} {output : Word64} {size : Byte} {valPtr beyond : ℕ → Byte}
  {memory : Memory}

/-- Each overload is the loop with its own `size`. -/
theorem toHString_eq_writeHex (overload : Overload) (output : Word64) (beyond : ℕ → Byte)
    (number : BitVec overload.bits) (memory : Memory) :
    overload.toHString output beyond number memory =
      writeHex output overload.size (argument number beyond) memory := by
  cases overload with
  | uint8 => rfl
  | uint16 => rfl
  | uint32 => rfl
  | uint64 => rfl

theorem writeHexLogged_result (output : Word64) (size : Byte) (valPtr : ℕ → Byte)
    (memory : Memory) :
    (writeHexLogged output size valPtr memory).result =
      some (writeHex output size valPtr memory) := by
  rw [writeHexLogged, result_bind, forLogged_result (fun i memory => rfl)]
  rfl

theorem toHStringLogged_result (number : BitVec overload.bits) :
    (overload.toHStringLogged output beyond number memory).result =
      some (overload.toHString output beyond number memory) := by
  rw [toHString_eq_writeHex]
  exact writeHexLogged_result _ _ _ _

/-! ## Bounds -/

/-- A byte of the argument, or an element of the buffer of 128. -/
def InBounds (overload : Overload) : Place → Prop
  | .argument byte => byte < overload.bits / 8
  | .output index => 0 ≤ index ∧ index ≤ 127

instance (overload : Overload) : DecidablePred (InBounds overload)
  | .argument _ => inferInstanceAs (Decidable (_ < _))
  | .output _ => inferInstanceAs (Decidable (_ ∧ _))

variable {P : Place → Prop}

theorem bodyLogged_all_iff (output : Word64) (size : Byte) (valPtr : ℕ → Byte) (i : ℕ)
    (memory : Memory) :
    (bodyLogged output size valPtr i memory).All P ↔
      P (.argument i) ∧ P (.output (size.toNat - (i * 2 + 1))) ∧
        P (.output (size.toNat - i * 2)) := by
  simp only [bodyLogged, all_bind, all_access, result_access, Option.some.injEq, forall_eq']
  tauto

/-- Each pass reads its byte and writes its two elements, and the terminator is written. -/
theorem writeHexLogged_all_iff (memory : Memory) :
    (writeHexLogged output size valPtr memory).All P ↔
      (∀ i < size.toNat, P (.argument i) ∧ P (.output (size.toNat - (i * 2 + 1))) ∧
        P (.output (size.toNat - i * 2))) ∧ P (.output (size.toNat + 1)) := by
  obtain ⟨⟨digits, hdigits⟩, hall⟩ := forLogged_all_iff (fun i memory => ⟨_, rfl⟩)
    (bodyLogged_all_iff output size valPtr) memory
  rw [writeHexLogged, all_bind, hall, hdigits]
  simp only [Option.some.injEq, forall_eq', all_access]

/-- The loop stays in the argument and in the buffer exactly for a byte. -/
theorem toHString_in_bounds_iff (overload : Overload) (output : Word64) (beyond : ℕ → Byte)
    (number : BitVec overload.bits) (memory : Memory) :
    (overload.toHStringLogged output beyond number memory).All (InBounds overload) ↔
      overload = .uint8 := by
  rw [Overload.toHStringLogged, writeHexLogged_all_iff]
  constructor
  · rintro ⟨hloop, -⟩
    cases overload with
    | uint8 => rfl
    | uint16 => exact absurd (hloop 2 (by decide)).1 (by decide)
    | uint32 => exact absurd (hloop 4 (by decide)).1 (by decide)
    | uint64 => exact absurd (hloop 8 (by decide)).1 (by decide)
  · rintro rfl
    decide

/-- `toHString(uint16_t)` also reads the byte behind its argument and writes the two bytes
in front of the buffer. -/
theorem hex_leaves_argument :
    (Place.argument 2 ∈ (Overload.uint16.toHStringLogged 0x1000 (fun _ => 0xFF) 0x1234
        fun _ => 0).log ∧
      Place.output (-1) ∈ (Overload.uint16.toHStringLogged 0x1000 (fun _ => 0xFF) 0x1234
        fun _ => 0).log ∧
      Overload.uint16.toHString 0x1000 (fun _ => 0xFF) 0x1234 (fun _ => 0) 0xFFF = 0x46) ∧
      ¬ (Overload.uint16.toHStringLogged 0x1000 (fun _ => 0xFF) 0x1234
        fun _ => 0).All (InBounds .uint16) := by
  decide +kernel

/-! ## The digits -/

def hexChar (digit : ℕ) : Byte :=
  if digit < 10 then BitVec.ofNat 8 (0x30 + digit) else BitVec.ofNat 8 (0x41 + (digit - 10))

/-- As many upper-case digits as the argument has half bytes, the most significant one
first, with its value. -/
def IsHexadecimal {bits : ℕ} (str : List Byte) (number : BitVec bits) : Prop :=
  ∃ digits : List ℕ, digits.length = bits / 4 ∧ (∀ digit ∈ digits, digit < 16) ∧
    value 16 digits = number.toNat ∧ str = digits.map hexChar

/-- The half byte that goes `place` cells in front of the last digit. -/
def halfByte (valPtr : ℕ → Byte) (place : ℕ) : Byte :=
  if place % 2 = 0 then valPtr (place / 2) &&& 0x0f else (valPtr (place / 2) &&& 0xf0) >>> 4

theorem element_inj {output : Word64} {left right : ℤ}
    (hnear : (left - right).natAbs < 2 ^ 64) :
    element output left = element output right ↔ left = right := by
  refine ⟨fun hsame => ?_, fun hsame => hsame ▸ rfl⟩
  have hvalue := congrArg BitVec.toNat ((BitVec.add_right_inj output).mp hsame)
  rw [BitVec.toNat_ofInt, BitVec.toNat_ofInt] at hvalue
  omega

/-- A store to one element of the buffer, seen at another. -/
theorem store8_element (memory : Memory) (output : Word64) {target index : ℤ} (value : Byte)
    (hnear : (index - target).natAbs < 2 ^ 64) :
    store8 memory (element output target) value (element output index) =
      if index = target then value else memory (element output index) := by
  simp only [store8_apply, element_inj hnear]

theorem halfByte_even (valPtr : ℕ → Byte) (i : ℕ) :
    halfByte valPtr (i * 2) = valPtr i &&& 0x0f := by
  rw [halfByte, if_pos (Nat.mul_mod_left i 2), Nat.mul_div_cancel i (by decide)]

theorem halfByte_odd (valPtr : ℕ → Byte) (i : ℕ) :
    halfByte valPtr (i * 2 + 1) = (valPtr i &&& 0xf0) >>> 4 := by
  rw [halfByte, if_neg (by omega), show (i * 2 + 1) / 2 = i by omega]

/-- After `passes` passes the last `2 * passes` digits are placed. -/
def Placed (output : Word64) (size : Byte) (valPtr : ℕ → Byte) (passes : ℕ) (memory : Memory) :
    Prop :=
  ∀ place ≤ size.toNat, place < passes * 2 →
    memory (element output (size.toNat - place)) = hexDigit (halfByte valPtr place)

/-- A pass puts the next two digits and keeps those that are placed. -/
theorem Placed.next {i : ℕ} (hi : i < size.toNat)
    (hplaced : Placed output size valPtr i memory) :
    Placed output size valPtr (i + 1)
      (store8 (store8 memory (element output (size.toNat - (i * 2 + 1)))
          (hexDigit ((valPtr i &&& 0xf0) >>> 4)))
        (element output (size.toNat - i * 2)) (hexDigit (valPtr i &&& 0x0f))) := by
  intro place hplace hlt
  have hsize := size.isLt
  rw [store8_element _ _ _ (by omega), store8_element _ _ _ (by omega)]
  rcases lt_trichotomy place (i * 2) with hbefore | rfl | hafter
  · rw [if_neg (by omega), if_neg (by omega)]
    exact hplaced place hplace hbefore
  · rw [if_pos (by omega), halfByte_even]
  · obtain rfl : place = i * 2 + 1 := by omega
    rw [if_neg (by omega), if_pos (by omega), halfByte_odd]

theorem writeHex_digit (output : Word64) {size : Byte} (valPtr : ℕ → Byte) (memory : Memory)
    {place : ℕ} (hplace : place ≤ size.toNat) (hsize : 0 < size.toNat) :
    writeHex output size valPtr memory (element output (size.toNat - place)) =
      hexDigit (halfByte valPtr place) := by
  have hdigits : Placed output size valPtr size.toNat _ :=
    forLoop_invariant (Placed output size valPtr)
      (show Placed output size valPtr 0 memory from fun _ _ hnone => absurd hnone (by omega))
      fun i hi current hplaced => hplaced.next hi
  rw [writeHex, store8_element _ _ _ (by omega), if_neg (by omega)]
  exact hdigits place hplace (by omega)

theorem writeHex_nul (output : Word64) (size : Byte) (valPtr : ℕ → Byte) (memory : Memory) :
    writeHex output size valPtr memory (element output (size.toNat + 1)) = 0 := by
  rw [writeHex, store8_apply, if_pos rfl]

theorem hexDigit_eq_hexChar : ∀ tmp : Byte, tmp < 16 → hexDigit tmp = hexChar tmp.toNat := by
  decide

theorem toNat_high_half : ∀ byte : Byte, ((byte &&& 0xf0) >>> 4).toNat = byte.toNat / 16 := by
  decide

theorem toNat_low_half : ∀ byte : Byte, (byte &&& 0x0f).toNat = byte.toNat % 16 := by
  decide

theorem toNat_byteOf {bits : ℕ} (number : BitVec bits) (i : ℕ) :
    (byteOf number i).toNat = number.toNat / 256 ^ i % 256 := by
  rw [byteOf, BitVec.extractLsb'_toNat, Nat.shiftRight_eq_div_pow, pow_mul]
  rfl

/-- The half bytes of the argument are its digits. -/
theorem toNat_halfByte {bits : ℕ} (number : BitVec bits) (beyond : ℕ → Byte) {place : ℕ}
    (hplace : place < bits / 8 * 2) :
    (halfByte (argument number beyond) place).toNat = number.toNat / 16 ^ place % 16 := by
  have hinside : ∀ i < bits / 8, argument number beyond i = byteOf number i :=
    fun i hi => if_pos hi
  have hpow : ∀ i, 16 ^ (i * 2) = 256 ^ i := fun i => by
    rw [pow_mul']
    rfl
  obtain ⟨i, rfl | rfl⟩ := place.even_or_odd'
  · rw [mul_comm, halfByte_even, toNat_low_half, hinside i (by omega), toNat_byteOf, hpow]
    omega
  · rw [mul_comm, halfByte_odd, toNat_high_half, hinside i (by omega), toNat_byteOf, pow_succ,
      hpow, ← Nat.div_div_eq_div_mul]
    omega

/-- The digits of the argument, as many as it has half bytes. -/
def hexadecimal {bits : ℕ} (number : BitVec bits) : List Byte :=
  (fixedWidth 16 (bits / 4) number.toNat).map hexChar

theorem isHexadecimal_hexadecimal {bits : ℕ} (number : BitVec bits) (hbits : 4 ∣ bits) :
    IsHexadecimal (hexadecimal number) number := by
  refine ⟨_, length_fixedWidth _ _ _, fun digit => lt_of_mem_fixedWidth (by decide), ?_, rfl⟩
  have hpow : 16 ^ (bits / 4) = 2 ^ bits := by
    rw [show 16 = 2 ^ 4 from rfl, ← pow_mul, Nat.mul_div_cancel' hbits]
  rw [value_fixedWidth, hpow, Nat.mod_eq_of_lt number.isLt]

theorem hexChar_ne_zero {digit : ℕ} (hdigit : digit < 16) : hexChar digit ≠ 0 := by
  interval_cases digit <;> decide

/-- The digits and the terminator that `writeHex` leaves make a string if `size` is one less
than their number. -/
theorem writeHex_isString {bits : ℕ} (number : BitVec bits) {size : Byte}
    (hsize : size.toNat + 1 = bits / 4) (heven : bits / 4 = bits / 8 * 2) (output : Word64)
    (beyond : ℕ → Byte) (memory : Memory) :
    IsString 0 (fun position : ℕ =>
      writeHex output size (argument number beyond) memory (element output position))
      (hexadecimal number) where
  cell position hposition := by
    have hlength : (hexadecimal number).length = size.toNat + 1 := by
      rw [hexadecimal, List.length_map, length_fixedWidth, hsize]
    rcases hposition.lt_or_eq with hinside | rfl
    · have hplace : (position : ℤ) = size.toNat - (size.toNat - position : ℕ) := by omega
      have hhalf := toNat_halfByte number beyond (show size.toNat - position < _ by omega)
      have hdigit : halfByte (argument number beyond) (size.toNat - position) < 16 := by
        rw [BitVec.lt_def, hhalf]
        exact Nat.mod_lt _ (by decide)
      rw [List.getD_eq_getElem _ _ hinside, hplace, writeHex_digit _ _ _ (by omega) (by omega),
        hexDigit_eq_hexChar _ hdigit, hhalf]
      simp only [hexadecimal, List.getElem_map, getElem_fixedWidth, ← hsize, Nat.add_sub_cancel]
    · rw [List.getD_eq_default _ _ le_rfl, hlength, Nat.cast_succ]
      exact writeHex_nul _ _ _ _
  proper chr hchr := by
    obtain ⟨digit, hdigit, rfl⟩ := List.mem_map.mp hchr
    exact hexChar_ne_zero (lt_of_mem_fixedWidth (by decide) hdigit)

theorem Overload.size_eq (overload : Overload) :
    overload.size.toNat + 1 = overload.bits / 4 ∧ overload.bits / 4 = overload.bits / 8 * 2 ∧
      4 ∣ overload.bits := by
  cases overload with
  | uint8 => decide
  | uint16 => decide
  | uint32 => decide
  | uint64 => decide

/-- Whatever lies behind the argument, the string that starts at the buffer is the argument
in upper-case hexadecimal digits, two for each of its bytes. -/
theorem toHString_hexadecimal (overload : Overload) (output : Word64) (beyond : ℕ → Byte)
    (number : BitVec overload.bits) (memory : Memory) :
    ∃ str, IsString 0 (fun position : ℕ =>
        overload.toHString output beyond number memory (element output position)) str ∧
      IsHexadecimal str number := by
  obtain ⟨hsize, heven, hbits⟩ := overload.size_eq
  rw [toHString_eq_writeHex]
  exact ⟨_, writeHex_isString number hsize heven output beyond memory,
    isHexadecimal_hexadecimal number hbits⟩

example : hexadecimal (0x0C5D : BitVec 16) = literal "0C5D" := by decide

end RedX.HexFormat
