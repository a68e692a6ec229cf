import PlantGrowth.Number
import PlantGrowth.Proofs.Number.Shortest
import PlantGrowth.Toml.Scalar

/-!
# Digits

The digits of a number are read as that number, and a positional text is worth what its digits are
worth in front of the point and behind it.
-/

namespace PlantGrowth.Toml.Scalar

open Number

/-- Every symbol is a digit. -/
def AllDigits (text : Word) : Prop := ∀ symbol ∈ text, symbol.isDigit = true

/-! ## Values of digits -/

theorem numberOf_append (base : ℕ) (first second : Word) :
    numberOf base (first ++ second) =
      numberOf base first * base ^ second.length + numberOf base second := by
  have hfold (start : ℕ) (text : Word) :
      text.foldl (fun number digit ↦ number * base + digitValue digit) start =
        start * base ^ text.length + numberOf base text := by
    induction text generalizing start with
    | nil => simp [numberOf]
    | cons digit rest ih =>
      rw [numberOf, List.foldl_cons, List.foldl_cons, ih, ih (0 * base + digitValue digit),
        List.length_cons, pow_succ]
      ring
  rw [numberOf, List.foldl_append, hfold]
  rfl

theorem digitValue_of_isDigit {digit : Char} (hdigit : digit.isDigit = true) :
    digitValue digit = digit.toNat - '0'.toNat := by
  rw [digitValue, if_pos hdigit]

theorem allDigits_digits (number : ℕ) : AllDigits (digits number) := fun _ hsymbol ↦
  Nat.isDigit_of_mem_toDigits (by decide) (by decide) hsymbol

@[simp]
theorem numberOf_digits (number : ℕ) : numberOf 10 (digits number) = number := by
  have hfold (start : ℕ) {text : Word} (htext : AllDigits text) :
      text.foldl (fun number digit ↦ number * 10 + digitValue digit) start =
        Nat.ofDigitChars 10 text start := by
    induction text generalizing start with
    | nil => rfl
    | cons digit rest ih =>
      obtain ⟨hdigit, hrest⟩ := List.forall_mem_cons.1 htext
      rw [List.foldl_cons, ih _ hrest, Nat.ofDigitChars_cons, digitValue_of_isDigit hdigit,
        Nat.mul_comm]
  rw [numberOf, hfold 0 (allDigits_digits number)]
  exact Nat.ofDigitChars_ten_toDigits

theorem numberOf_zeros (base count : ℕ) : numberOf base (List.replicate count '0') = 0 := by
  induction count with
  | zero => rfl
  | succ count ih =>
    rw [List.replicate_succ', numberOf_append, ih]
    simp [numberOf, digitValue]

/-- Only zero is written with a leading zero. -/
theorem head?_digits_ne_zero {number : ℕ} (hpos : 0 < number) : (digits number).head? ≠ some '0' := by
  induction number using Nat.strong_induction_on with
  | _ number ih =>
    rcases Nat.lt_or_ge number 10 with hless | hmore
    · rw [digits, Nat.toDigits_of_lt_base hless]
      interval_cases number <;> decide
    · have hshorter := ih (number / 10) (by omega) (by omega)
      rw [digits, Nat.toDigits_of_base_le (by decide) hmore, List.head?_append]
      cases hhead : (Nat.toDigits 10 (number / 10)).head? with
      | none => exact absurd (List.head?_eq_none_iff.1 hhead) Nat.toDigits_ne_nil
      | some symbol =>
        rw [digits, hhead] at hshorter
        exact hshorter

/-! ## Digits behind a point -/

/-- What digits are worth behind a point. -/
def fractionValue (text : Word) : ℚ := numberOf 10 text / 10 ^ text.length

theorem fractionValue_append_zeros (text : Word) (count : ℕ) :
    fractionValue (text ++ List.replicate count '0') = fractionValue text := by
  rw [fractionValue, fractionValue, numberOf_append, numberOf_zeros, List.length_append,
    List.length_replicate, pow_add]
  push_cast
  field_simp
  ring

theorem numberOf_div_pow (whole fraction : Word) :
    (numberOf 10 (whole ++ fraction) : ℚ) / 10 ^ fraction.length =
      numberOf 10 whole + fractionValue fraction := by
  rw [numberOf_append, fractionValue]
  push_cast
  field_simp

/-- Zeros at the end can be left out. -/
theorem exists_eq_append_zeros (text : Word) :
    ∃ count, text = (text.reverse.dropWhile (· == '0')).reverse ++ List.replicate count '0' := by
  refine ⟨(text.reverse.takeWhile (· == '0')).length, ?_⟩
  have hzeros : (text.reverse.takeWhile (· == '0')).reverse =
      List.replicate (text.reverse.takeWhile (· == '0')).length '0' := by
    rw [List.eq_replicate_iff, List.length_reverse]
    refine ⟨rfl, fun symbol hsymbol ↦ ?_⟩
    have hzero := List.all_takeWhile (p := (· == '0')) (l := text.reverse)
    rw [List.all_eq_true] at hzero
    exact beq_iff_eq.1 (hzero symbol (List.mem_reverse.1 hsymbol))
  rw [← hzeros, ← List.reverse_append, List.takeWhile_append_dropWhile, List.reverse_reverse]

/-! ## The parts of a decimal -/

/-- All places behind the point, zeros at the end included. -/
def padded (decimal : Decimal) : Word :=
  List.replicate ((-decimal.exponent).toNat -
      (digits (decimal.coefficient % tenTo (-decimal.exponent).toNat)).length) '0' ++
    digits (decimal.coefficient % tenTo (-decimal.exponent).toNat)

theorem fractionValue_padded (decimal : Decimal) :
    fractionValue (padded decimal) =
      (decimal.coefficient % 10 ^ (-decimal.exponent).toNat : ℕ) / 10 ^ (-decimal.exponent).toNat := by
  have hnumber : numberOf 10 (padded decimal) =
      decimal.coefficient % 10 ^ (-decimal.exponent).toNat := by
    rw [padded, numberOf_append, numberOf_zeros, zero_mul, zero_add, numberOf_digits, tenTo_eq]
  rw [fractionValue, hnumber]
  rcases Nat.eq_zero_or_pos (-decimal.exponent).toNat with hwhole | hplaces
  · rw [hwhole, pow_zero, Nat.mod_one, Nat.cast_zero, zero_div, zero_div]
  · have hshort : (digits (decimal.coefficient % tenTo (-decimal.exponent).toNat)).length ≤
        (-decimal.exponent).toNat :=
      (Nat.length_toDigits_le_iff (by decide) hplaces).2
        (Nat.mod_lt _ (Nat.pow_pos (by decide)))
    have hlength : (padded decimal).length = (-decimal.exponent).toNat := by
      rw [padded, List.length_append, List.length_replicate]
      omega
    rw [hlength]

theorem fractionValue_fractionPart (decimal : Decimal) :
    fractionValue decimal.fractionPart = fractionValue (padded decimal) := by
  obtain ⟨count, hpadded⟩ := exists_eq_append_zeros (padded decimal)
  have hvalue := congrArg fractionValue hpadded
  rw [fractionValue_append_zeros] at hvalue
  exact hvalue.symm

/-- The digits before the point and those behind it make up the decimal. -/
theorem value_parts (decimal : Decimal) :
    (numberOf 10 decimal.wholePart : ℚ) + fractionValue decimal.fractionPart = decimal.value := by
  rw [fractionValue_fractionPart, fractionValue_padded, Decimal.wholePart, numberOf_digits,
    tenTo_eq, tenTo_eq, Decimal.value]
  rcases le_total 0 decimal.exponent with hwhole | hbehind
  · have hnone : (-decimal.exponent).toNat = 0 := by omega
    rw [hnone, pow_zero, Nat.div_one, Nat.mod_one, Nat.cast_zero, zero_div, add_zero]
    push_cast
    rw [← zpow_natCast, Int.toNat_of_nonneg hwhole]
  · have hnone : decimal.exponent.toNat = 0 := by omega
    have hpower : (10 : ℚ) ^ decimal.exponent = 1 / 10 ^ (-decimal.exponent).toNat := by
      rw [← zpow_natCast, Int.toNat_of_nonneg (by omega), zpow_neg, one_div, inv_inv]
    have hsplit : (decimal.coefficient : ℚ) =
        10 ^ (-decimal.exponent).toNat * (decimal.coefficient / 10 ^ (-decimal.exponent).toNat : ℕ) +
          (decimal.coefficient % 10 ^ (-decimal.exponent).toNat : ℕ) := by
      exact_mod_cast (Nat.div_add_mod decimal.coefficient _).symm
    rw [hnone, pow_zero, Nat.mul_one, hpower]
    field_simp
    linarith

theorem allDigits_fractionPart (decimal : Decimal) : AllDigits decimal.fractionPart := by
  intro symbol hsymbol
  have hpadded : symbol ∈ padded decimal :=
    List.mem_reverse.1 ((List.dropWhile_suffix _).subset (List.mem_reverse.1 hsymbol))
  rcases List.mem_append.1 hpadded with hzero | hdigit
  · rw [(List.mem_replicate.1 hzero).2]
    rfl
  · exact allDigits_digits _ symbol hdigit

end PlantGrowth.Toml.Scalar
