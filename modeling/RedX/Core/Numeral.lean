import Mathlib.Data.Nat.Digits.Lemmas

/-!
# Numerals

A number is written by its digits with the most significant one first.  The canonical
numeral has no leading zero; the one of a fixed width is filled up with zeros.
-/

namespace RedX.Numeral

variable {base n width : ℕ} {digits : List ℕ}

/-- The number that digits stand for. -/
def value (base : ℕ) (digits : List ℕ) : ℕ := Nat.ofDigits base digits.reverse

@[simp]
theorem value_nil (base : ℕ) : value base [] = 0 := rfl

@[simp]
theorem value_append_singleton (base : ℕ) (digits : List ℕ) (last : ℕ) :
    value base (digits ++ [last]) = value base digits * base + last := by
  rw [value, List.reverse_append, List.reverse_singleton, List.singleton_append,
    Nat.ofDigits_cons, Nat.add_comm, Nat.mul_comm]
  rfl

/-! ## Canonical numerals -/

structure IsNumeral (base : ℕ) (digits : List ℕ) (n : ℕ) : Prop where
  lt_base : ∀ digit ∈ digits, digit < base
  nonempty : digits ≠ []
  leading : digits.head? = some 0 → digits = [0]
  value_eq : value base digits = n

def numeral (base n : ℕ) : List ℕ := if n = 0 then [0] else (Nat.digits base n).reverse

theorem numeral_of_lt (hn : n < base) : numeral base n = [n] := by
  unfold numeral
  split_ifs with hzero
  · rw [hzero]
  · rw [Nat.digits_of_lt base n hzero hn, List.reverse_singleton]

theorem numeral_of_le (hbase : 1 < base) (hn : base ≤ n) :
    numeral base n = numeral base (n / base) ++ [n % base] := by
  have hrest : n / base ≠ 0 := (Nat.div_pos hn (by omega)).ne'
  rw [numeral, numeral, if_neg (by omega), if_neg hrest,
    Nat.digits_def' hbase (by omega), List.reverse_cons]

theorem isNumeral_numeral (hbase : 1 < base) (n : ℕ) : IsNumeral base (numeral base n) n := by
  unfold numeral
  split_ifs with hzero
  · refine ⟨fun digit hdigit => ?_, List.cons_ne_nil _ _, fun _ => rfl, by simp [hzero, value]⟩
    rw [List.mem_singleton.mp hdigit]
    omega
  · have hlast := Nat.getLast_digit_ne_zero base hzero
    refine ⟨fun digit hdigit => ?_, ?_, fun hhead => ?_, ?_⟩
    · exact Nat.digits_lt_base hbase (List.mem_reverse.mp hdigit)
    · exact fun hnil => hzero (Nat.digits_eq_nil_iff_eq_zero.mp (List.reverse_eq_nil_iff.mp hnil))
    · rw [List.head?_reverse, List.getLast?_eq_some_getLast
        (Nat.digits_ne_nil_iff_ne_zero.mpr hzero), Option.some.injEq] at hhead
      exact absurd hhead hlast
    · rw [value, List.reverse_reverse, Nat.ofDigits_digits]

/-- A number has one canonical numeral. -/
theorem IsNumeral.eq_numeral (hbase : 1 < base) (hdigits : IsNumeral base digits n) :
    digits = numeral base n := by
  by_cases hzero : digits = [0]
  · rw [← hdigits.value_eq, hzero]
    exact (numeral_of_lt (Nat.zero_lt_of_lt hbase)).symm
  have hreverse : Nat.digits base n = digits.reverse := by
    rw [← hdigits.value_eq]
    refine Nat.digits_ofDigits base hbase _ (fun digit hdigit => ?_) fun hnil hlast => ?_
    · exact hdigits.lt_base digit (List.mem_reverse.mp hdigit)
    · rw [List.getLast_reverse] at hlast
      exact hzero (hdigits.leading (hlast ▸ List.head?_eq_some_head hdigits.nonempty))
  have hn : n ≠ 0 := by
    rintro rfl
    rw [Nat.digits_zero] at hreverse
    exact hdigits.nonempty (List.reverse_eq_nil_iff.mp hreverse.symm)
  rw [numeral, if_neg hn, hreverse, List.reverse_reverse]

theorem length_numeral_le (hbase : 1 < base) (hwidth : 0 < width) (hn : n < base ^ width) :
    (numeral base n).length ≤ width := by
  unfold numeral
  split_ifs with hzero
  · exact hwidth
  · rwa [List.length_reverse, Nat.digits_length_le_iff hbase]

/-! ## Fixed width -/

/-- The last `width` digits of a number. -/
def fixedWidth (base : ℕ) : ℕ → ℕ → List ℕ
  | 0, _ => []
  | width + 1, n => fixedWidth base width (n / base) ++ [n % base]

@[simp]
theorem length_fixedWidth (base width n : ℕ) : (fixedWidth base width n).length = width := by
  induction width generalizing n with
  | zero => rfl
  | succ width ih => rw [fixedWidth, List.length_append, ih, List.length_singleton]

theorem value_fixedWidth (base width n : ℕ) :
    value base (fixedWidth base width n) = n % base ^ width := by
  induction width generalizing n with
  | zero => rw [fixedWidth, value_nil, pow_zero, Nat.mod_one]
  | succ width ih =>
      calc value base (fixedWidth base (width + 1) n)
          = n / base % base ^ width * base + n % base := by
            rw [fixedWidth, value_append_singleton, ih]
        _ = n % (base * base ^ width) := by
            rw [Nat.mod_mul, Nat.mul_comm base, Nat.add_comm]
        _ = n % base ^ (width + 1) := by rw [pow_succ']

theorem getElem_fixedWidth (base width n : ℕ) {position : ℕ}
    (hposition : position < (fixedWidth base width n).length) :
    (fixedWidth base width n)[position] = n / base ^ (width - 1 - position) % base := by
  induction width generalizing n with
  | zero => exact absurd hposition (Nat.not_lt_zero _)
  | succ width ih =>
      simp only [fixedWidth, List.getElem_append, length_fixedWidth]
      rw [length_fixedWidth] at hposition
      split_ifs with hearlier
      · rw [ih, Nat.div_div_eq_div_mul, ← pow_succ',
          show width - 1 - position + 1 = width + 1 - 1 - position by omega]
      · obtain rfl : position = width := by omega
        rw [List.getElem_singleton, Nat.add_sub_cancel, Nat.sub_self, pow_zero, Nat.div_one]

theorem lt_of_mem_fixedWidth (hbase : 0 < base) {digit : ℕ}
    (hdigit : digit ∈ fixedWidth base width n) : digit < base := by
  induction width generalizing n with
  | zero => exact absurd hdigit List.not_mem_nil
  | succ width ih =>
      rw [fixedWidth, List.mem_append, List.mem_singleton] at hdigit
      rcases hdigit with hfirst | rfl
      · exact ih hfirst
      · exact Nat.mod_lt n hbase

end RedX.Numeral
