import RedX.Core.MachineWord
import RedX.Core.Numeral
import RedX.Core.TerminatedString

/-!
# Decimal strings

`toString` of `libs/string.cpp` counts the digits of a number in one loop and writes them in
another, from the last one on, into a static buffer.  The signed one first turns a negative
number around, which does nothing to the smallest one.
-/

namespace RedX.DecimalString

open RedX.MachineWord
open RedX.Numeral
open RedX.TerminatedString

/-- `for (uint64_t sizeCheck = number; sizeCheck / 10 > 0; sizeCheck /= 10) size++;` -/
def sizeLoop (sizeCheck : ℕ) (size : Byte) : Byte :=
  if sizeCheck / 10 > 0 then sizeLoop (sizeCheck / 10) (size + 1) else size

/-- The last digit of `number` goes to `size - index + isNegative`, where the three are
promoted to `int`. -/
def putDigit (size isNegative : Byte) (number : ℤ) (index : Byte) (output : ℤ → Byte) :
    ℤ → Byte :=
  let remainder := BitVec.ofInt 8 (number.tmod 10)
  Function.update output (size.toNat - index.toNat + isNegative.toNat) (remainder + 0x30)

theorem tdiv_pos_iff (number : ℤ) : 0 < number.tdiv 10 ↔ 10 ≤ number := by
  cases number with
  | ofNat number =>
      change 0 < ((number / 10 : ℕ) : ℤ) ↔ _
      rw [Int.ofNat_eq_natCast]
      omega
  | negSucc number =>
      change 0 < -(((number + 1) / 10 : ℕ) : ℤ) ↔ _
      omega

/-- `while (number / 10 > 0)`, in `uint64_t` or in `int64_t`. -/
def digitLoop (size isNegative : Byte) (number : ℤ) (index : Byte) (output : ℤ → Byte) :
    ℤ × Byte × (ℤ → Byte) :=
  if number.tdiv 10 > 0 then
    digitLoop size isNegative (number.tdiv 10) (index + 1)
      (putDigit size isNegative number index output)
  else (number, index, output)
termination_by number.toNat
decreasing_by
  have hlarge := (tdiv_pos_iff number).mp ‹_›
  rw [Int.tdiv_eq_ediv_of_nonneg (by omega)]
  omega

/-- What both functions do from the sizing loop on; `sizeCheck` starts as the number in
`uint64_t`. -/
def format (sizeCheck : ℕ) (isNegative : Byte) (number : ℤ) (output : ℤ → Byte) : ℤ → Byte :=
  let size := sizeLoop sizeCheck 0
  let (number, index, output) := digitLoop size isNegative number 0 output
  let output := putDigit size isNegative number index output
  Function.update output (size.toNat + 1 + isNegative.toNat) 0

/-- `toString(uint64_t)`: what `uintOutput` holds when it is returned. -/
def toStringUnsigned (number : Word64) (uintOutput : ℤ → Byte) : ℤ → Byte :=
  format number.toNat 0 number.toNat uintOutput

/-- `toString(int64_t)`: what `intOutput` holds when it is returned. -/
def toStringSigned (number : Word64) (intOutput : ℤ → Byte) : ℤ → Byte :=
  if number.toInt < 0 then
    let number := number * -1
    format number.toNat 1 number.toInt (Function.update intOutput 0 0x2D)
  else format number.toNat 0 number.toInt intOutput

/-! ## Decimal representations -/

def decimalDigit (digit : ℕ) : Byte := BitVec.ofNat 8 (0x30 + digit)

/-- The digits of `n` without a leading zero, as characters. -/
def IsDecimal (str : List Byte) (n : ℕ) : Prop :=
  ∃ digits, IsNumeral 10 digits n ∧ str = digits.map decimalDigit

/-- A minus sign exactly for a negative number. -/
def IsSignedDecimal (str : List Byte) (number : ℤ) : Prop :=
  if number < 0 then ∃ rest, str = 0x2D :: rest ∧ IsDecimal rest number.natAbs
  else IsDecimal str number.natAbs

/-- The string that a returned buffer holds. -/
def Holds (output : ℤ → Byte) (str : List Byte) : Prop :=
  IsString 0 (fun position : ℕ => output position) str

def decimal (n : ℕ) : List Byte := (numeral 10 n).map decimalDigit

example : decimal 1207 = literal "1207" := by decide

theorem isDecimal_decimal (n : ℕ) : IsDecimal (decimal n) n :=
  ⟨numeral 10 n, isNumeral_numeral (by decide) n, rfl⟩

theorem toNat_decimalDigit {digit : ℕ} (hdigit : digit < 10) :
    (decimalDigit digit).toNat = 0x30 + digit := by
  rw [decimalDigit, BitVec.toNat_ofNat]
  omega

theorem IsDecimal.chr {str : List Byte} {n : ℕ} (hstr : IsDecimal str n) {chr : Byte}
    (hchr : chr ∈ str) : 0x30 ≤ chr ∧ chr ≤ 0x39 := by
  obtain ⟨digits, hdigits, rfl⟩ := hstr
  obtain ⟨digit, hdigit, rfl⟩ := List.mem_map.mp hchr
  have hlt := hdigits.lt_base digit hdigit
  rw [BitVec.le_def, BitVec.le_def, toNat_decimalDigit hlt]
  exact ⟨by simp, show 0x30 + digit ≤ 0x39 by omega⟩

theorem IsDecimal.eq_decimal {str : List Byte} {n : ℕ} (hstr : IsDecimal str n) :
    str = decimal n := by
  obtain ⟨digits, hdigits, rfl⟩ := hstr
  rw [decimal, hdigits.eq_numeral (by decide)]

/-! ## The two loops -/

theorem length_decimal_le (number : Word64) : (decimal number.toNat).length ≤ 20 := by
  rw [decimal, List.length_map]
  exact length_numeral_le (by decide) (by decide) (number.isLt.trans (by decide))

theorem decimal_of_lt {n : ℕ} (hn : n < 10) : decimal n = [decimalDigit n] := by
  rw [decimal, numeral_of_lt hn, List.map_singleton]

theorem decimal_of_le {n : ℕ} (hn : 10 ≤ n) :
    decimal n = decimal (n / 10) ++ [decimalDigit (n % 10)] := by
  rw [decimal, numeral_of_le (by decide) hn, List.map_append, List.map_singleton]
  rfl

theorem length_decimal_pos (n : ℕ) : 0 < (decimal n).length := by
  rw [decimal, List.length_map, List.length_pos_iff]
  exact (isNumeral_numeral (by decide) n).nonempty

theorem toNat_succ (counter : Byte) (hlast : counter.toNat < 255) :
    (counter + 1).toNat = counter.toNat + 1 := by
  rw [BitVec.toNat_add, show (1 : Byte).toNat = 1 from rfl]
  omega

/-- The sizing loop counts the digits but one. -/
theorem sizeLoop_toNat (n : ℕ) (size : Byte) (hfits : size.toNat + (decimal n).length ≤ 256) :
    (sizeLoop n size).toNat + 1 = size.toNat + (decimal n).length := by
  fun_induction sizeLoop n size with
  | case1 n size hlarge ih =>
      rw [decimal_of_le (by omega), List.length_append, List.length_singleton] at hfits ⊢
      have hrest := length_decimal_pos (n / 10)
      have hnext := toNat_succ size (by omega)
      rw [ih (by omega), hnext]
      omega
  | case2 n size hsmall =>
      rw [decimal_of_lt (by omega), List.length_singleton]

/-- A digit that is put behind the place of the string that is filled in next. -/
theorem putDigit_fills {size isNegative index : Byte} (n : ℕ) (output : ℤ → Byte)
    {after : ℤ → Byte} {first : ℤ} {str : List Byte}
    (hplace : (size.toNat - index.toNat + isNegative.toNat : ℤ) = first + str.length)
    (hrest : Fills (putDigit size isNegative n index output) after first str) :
    Fills output after first (str ++ [decimalDigit (n % 10)]) := by
  have hremainder : (n : ℤ).tmod 10 = (n % 10 : ℕ) := rfl
  have hchr : BitVec.ofInt 8 ((n : ℤ).tmod 10) + 0x30 = decimalDigit (n % 10) := by
    rw [hremainder, BitVec.ofInt_natCast, BitVec.add_comm, decimalDigit, BitVec.ofNat_add]
    rfl
  rw [putDigit, hchr, hplace] at hrest
  exact hrest.snoc

/-- The digit loop and the digit after it fill in the number, from `first` on if that many
digits are left. -/
theorem digitLoop_fills (size isNegative index : Byte) (n : ℕ) (output : ℤ → Byte) {first : ℤ}
    (hcounter : index.toNat + (decimal n).length ≤ 256)
    (hplace : (size.toNat - index.toNat + isNegative.toNat : ℤ) + 1 =
      first + (decimal n).length) :
    let last := digitLoop size isNegative n index output
    Fills output (putDigit size isNegative last.1 last.2.1 last.2.2) first (decimal n) := by
  induction n using Nat.strong_induction_on generalizing index output with
  | _ n ih =>
      have hmore := tdiv_pos_iff n
      rw [digitLoop]
      by_cases hsmall : n < 10
      · rw [decimal_of_lt hsmall, List.length_singleton] at hplace
        have hdigit := putDigit_fills n output (by simpa using hplace) (Fills.nil _ first)
        rw [if_neg (by omega), decimal_of_lt hsmall]
        rwa [Nat.mod_eq_of_lt hsmall] at hdigit
      · have hrest := length_decimal_pos (n / 10)
        have hquotient : (n : ℤ).tdiv 10 = (n / 10 : ℕ) := rfl
        rw [decimal_of_le (by omega), List.length_append, List.length_singleton] at hcounter hplace
        have hnext := toNat_succ index (by omega)
        rw [decimal_of_le (by omega), if_pos (by omega), hquotient]
        refine putDigit_fills n output ?_ (ih (n / 10) ?_ _ _ ?_ ?_)
        all_goals omega

/-- On a number that is not negative both functions fill in its digits and terminate them. -/
theorem format_fills (number : Word64) (isNegative : Byte) (output : ℤ → Byte) :
    ∃ filled, Fills output filled isNegative.toNat (decimal number.toNat) ∧
      format number.toNat isNegative number.toNat output =
        Function.update filled (isNegative.toNat + (decimal number.toNat).length) 0 := by
  have hlength := length_decimal_le number
  have hsize : (sizeLoop number.toNat 0).toNat + 1 = (decimal number.toNat).length := by
    rw [sizeLoop_toNat _ 0 (show 0 + _ ≤ 256 by omega)]
    exact Nat.zero_add _
  have hnul : ((sizeLoop number.toNat 0).toNat + 1 + isNegative.toNat : ℤ) =
      isNegative.toNat + (decimal number.toNat).length := by
    omega
  refine ⟨_, digitLoop_fills (sizeLoop number.toNat 0) isNegative 0 number.toNat output ?_ ?_, ?_⟩
  · change 0 + _ ≤ 256
    omega
  · change (_ - (0 : ℤ) + _ + 1 : ℤ) = _
    omega
  · rw [← hnul]
    rfl

theorem ne_zero_of_mem_decimal {n : ℕ} : ∀ chr ∈ decimal n, chr ≠ 0 := by
  rintro chr hchr rfl
  exact absurd ((isDecimal_decimal n).chr hchr).1 (by decide)

theorem toStringUnsigned_holds (number : Word64) (uintOutput : ℤ → Byte) :
    Holds (toStringUnsigned number uintOutput) (decimal number.toNat) := by
  obtain ⟨filled, hfills, hformat⟩ := format_fills number 0 uintOutput
  have hstring := hfills.isString ne_zero_of_mem_decimal
  rw [Holds, toStringUnsigned, hformat]
  simpa using hstring

/-- `toString(uint64_t)` returns the canonical decimal representation of its argument,
whatever the buffer held. -/
theorem toString_unsigned_decimal (number : Word64) (uintOutput : ℤ → Byte) :
    ∃ str, Holds (toStringUnsigned number uintOutput) str ∧ IsDecimal str number.toNat :=
  ⟨_, toStringUnsigned_holds number uintOutput, isDecimal_decimal _⟩

/-! ## Signed numbers -/

/-- The buffer that is returned for `number` holds its decimal representation. -/
def Formats (number : Word64) (intOutput : ℤ → Byte) : Prop :=
  ∃ str, Holds (toStringSigned number intOutput) str ∧ IsSignedDecimal str number.toInt

theorem toInt_of_nonneg {number : Word64} (hnonneg : 0 ≤ number.toInt) :
    number.toInt = number.toNat := by
  rw [BitVec.toInt_eq_toNat_cond] at hnonneg ⊢
  split_ifs at hnonneg ⊢ <;> omega

/-- A number that is not negative is written as it is without a sign. -/
theorem toStringSigned_of_nonneg {number : Word64} (hnonneg : 0 ≤ number.toInt)
    (intOutput : ℤ → Byte) :
    toStringSigned number intOutput = toStringUnsigned number intOutput := by
  rw [toStringSigned, if_neg (by omega), toInt_of_nonneg hnonneg, toStringUnsigned]

/-- Any other than the smallest one is turned around. -/
theorem toInt_mul_neg_one {number : Word64} (hneg : number.toInt < 0)
    (hmin : number ≠ BitVec.intMin 64) :
    (number * -1).toNat = number.toInt.natAbs ∧ (number * -1).toInt = number.toInt.natAbs := by
  have hnumber := number.isLt
  have hlarge : 2 ^ 63 < number.toNat := by
    have hne : number.toNat ≠ 2 ^ 63 := fun hsame => hmin (BitVec.eq_of_toNat_eq hsame)
    rw [BitVec.toInt_eq_toNat_cond] at hneg
    split_ifs at hneg <;> omega
  have habs : number.toInt.natAbs = 2 ^ 64 - number.toNat := by
    rw [BitVec.toInt_eq_toNat_cond]
    split_ifs <;> omega
  have hturned : (number * -1).toNat = 2 ^ 64 - number.toNat := by
    rw [BitVec.mul_neg, show number * 1 = number from BitVec.mul_one number, BitVec.toNat_neg]
    omega
  rw [habs]
  refine ⟨hturned, ?_⟩
  rw [BitVec.toInt_eq_toNat_of_lt (by omega), hturned]

theorem toStringSigned_of_neg {number : Word64} (hneg : number.toInt < 0)
    (hmin : number ≠ BitVec.intMin 64) (intOutput : ℤ → Byte) :
    toStringSigned number intOutput =
      format (number * -1).toNat 1 (number * -1).toNat (Function.update intOutput 0 0x2D) := by
  obtain ⟨hnat, hint⟩ := toInt_mul_neg_one hneg hmin
  rw [toStringSigned, if_pos hneg]
  dsimp only
  rw [hint, hnat]

theorem signed_decimal_of_neg {number : Word64} (hneg : number.toInt < 0)
    (hmin : number ≠ BitVec.intMin 64) (intOutput : ℤ → Byte) :
    Holds (toStringSigned number intOutput) (0x2D :: decimal number.toInt.natAbs) := by
  obtain ⟨filled, hfills, hformat⟩ := format_fills (number * -1) 1
    (Function.update intOutput 0 0x2D)
  have hrest := hfills.isString ne_zero_of_mem_decimal
  rw [Holds, toStringSigned_of_neg hneg hmin, hformat, ← (toInt_mul_neg_one hneg hmin).1]
  apply isString_cons
  · have hone : (1 : Byte).toNat = 1 := rfl
    rw [Function.update_of_ne (by omega), hfills.outside _ (.inl (by decide)),
      Nat.cast_zero, Function.update_self]
  · decide
  · refine hrest.congr fun position _ => ?_
    rw [Nat.cast_succ, add_comm (position : ℤ)]
    rfl

/-- The smallest number stays negative, so the digit loop ends at once and the cell of the
last digit gets a bracket. -/
theorem toStringSigned_min (intOutput : ℤ → Byte) :
    toStringSigned (BitVec.intMin 64) intOutput =
      Function.update (Function.update (Function.update intOutput 0 0x2D) 19 0x28) 20 0 := by
  have hsize : sizeLoop (BitVec.intMin 64 * -1).toNat 0 = 18 := by decide +kernel
  have hloop : ∀ output, digitLoop 18 1 (BitVec.intMin 64 * -1).toInt 0 output =
      ((BitVec.intMin 64 * -1).toInt, 0, output) := by
    intro output
    rw [digitLoop, if_neg (by decide)]
  rw [toStringSigned, if_pos (by decide)]
  simp only [format, hsize, hloop]
  rfl

theorem not_formats_min (intOutput : ℤ → Byte) : ¬ Formats (BitVec.intMin 64) intOutput := by
  rintro ⟨str, hstr, hdecimal⟩
  rw [IsSignedDecimal, if_pos (by decide)] at hdecimal
  obtain ⟨rest, rfl, hrest⟩ := hdecimal
  have hlength : rest.length = 19 := by
    rw [hrest.eq_decimal, ← Nat.zero_add (List.length _)]
    exact (sizeLoop_toNat _ 0 (by decide +kernel)).symm.trans (by decide +kernel)
  have hcell : toStringSigned (BitVec.intMin 64) intOutput (19 : ℕ) = rest.getD 18 0 :=
    hstr.cell 19 (by rw [List.length_cons]; omega)
  rw [toStringSigned_min, List.getD_eq_getElem _ _ (by omega)] at hcell
  have hbracket : (0x28 : Byte) ∈ rest := List.mem_of_getElem hcell.symm
  exact absurd (hrest.chr hbracket).1 (by decide)

/-- For every buffer the string returned is the canonical decimal representation exactly
where the number is not the smallest one. -/
theorem toString_signed_iff (number : Word64) (intOutput : ℤ → Byte) :
    Formats number intOutput ↔ number ≠ BitVec.intMin 64 := by
  constructor
  · rintro hformats rfl
    exact not_formats_min intOutput hformats
  · intro hmin
    by_cases hneg : number.toInt < 0
    · refine ⟨_, signed_decimal_of_neg hneg hmin intOutput, ?_⟩
      rw [IsSignedDecimal, if_pos hneg]
      exact ⟨_, rfl, isDecimal_decimal _⟩
    · have hvalue := toInt_of_nonneg (not_lt.mp hneg)
      refine ⟨decimal number.toNat, ?_, ?_⟩
      · rw [toStringSigned_of_nonneg (not_lt.mp hneg)]
        exact toStringUnsigned_holds number intOutput
      · rw [IsSignedDecimal, if_neg hneg, hvalue, Int.natAbs_natCast]
        exact isDecimal_decimal _

/-- With a buffer of zeros the string returned for the smallest number is a lone minus
sign, and the bracket stands eighteen zeros behind it. -/
theorem smallest_number_lost :
    (toStringSigned (BitVec.intMin 64) (fun _ => 0) 0 = 0x2D ∧
      toStringSigned (BitVec.intMin 64) (fun _ => 0) 1 = 0 ∧
      toStringSigned (BitVec.intMin 64) (fun _ => 0) 19 = 0x28) ∧
      ¬ Formats (BitVec.intMin 64) fun _ => 0 := by
  rw [toStringSigned_min]
  exact ⟨⟨by decide, by decide, by decide⟩, not_formats_min _⟩

/-! ## Bounds -/

theorem format_kept (number : Word64) (isNegative : Byte) (output : ℤ → Byte) {index : ℤ}
    (hindex : index < isNegative.toNat ∨ isNegative.toNat + 20 < index) :
    format number.toNat isNegative number.toNat output index = output index := by
  have hlength := length_decimal_le number
  obtain ⟨filled, hfills, hformat⟩ := format_fills number isNegative output
  rw [hformat, Function.update_of_ne (by omega), hfills.outside index (by omega)]

/-- Neither function changes anything outside its buffer of 128 characters. -/
theorem toString_kept (number : Word64) (output : ℤ → Byte) {index : ℤ}
    (hindex : index < 0 ∨ 128 ≤ index) :
    toStringUnsigned number output index = output index ∧
      toStringSigned number output index = output index := by
  have hone : (1 : Byte).toNat = 1 := rfl
  have hunsigned : toStringUnsigned number output index = output index :=
    format_kept number 0 output (hindex.imp_right fun hlarge => show (0 : ℤ) + 20 < index by omega)
  refine ⟨hunsigned, ?_⟩
  by_cases hneg : number.toInt < 0
  · by_cases hmin : number = BitVec.intMin 64
    · rw [hmin, toStringSigned_min, Function.update_of_ne (by omega),
        Function.update_of_ne (by omega), Function.update_of_ne (by omega)]
    · rw [toStringSigned_of_neg hneg hmin, format_kept _ _ _ (by omega),
        Function.update_of_ne (by omega)]
  · rw [toStringSigned_of_nonneg (not_lt.mp hneg), hunsigned]

end RedX.DecimalString
