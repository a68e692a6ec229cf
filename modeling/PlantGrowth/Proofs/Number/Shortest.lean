import PlantGrowth.Number
import PlantGrowth.Proofs.Number.Rounding

/-!
# Shortest decimals round back

The search for a short decimal only accepts what lies in the rounding interval, and where it finds
nothing the decimal is exact. So the decimal that is chosen rounds to the binary number it was
chosen for.
-/

namespace PlantGrowth.Number

open Float.Model

variable {format : Format} {mantissa : ℕ} {exponent : ℤ}

def Decimal.value (decimal : Decimal) : ℚ := decimal.coefficient * 10 ^ decimal.exponent

theorem twoTo_eq (exponent : ℕ) : twoTo exponent = 2 ^ exponent := rfl

theorem tenTo_eq (exponent : ℕ) : tenTo exponent = 10 ^ exponent := rfl

namespace RoundingInterval

/-- The lower reach is counted in quarters of a unit. -/
theorem reachBelow_ofBinary (format : Format) (mantissa : ℕ) (exponent : ℤ) :
    ((ofBinary format mantissa exponent).reachBelow : ℚ) =
      4 * Number.reachBelow format mantissa exponent * 2 ^ exponent.toNat := by
  simp only [ofBinary, Number.reachBelow, twoTo_eq, Bool.and_eq_true, beq_iff_eq, decide_eq_true_eq]
  split <;> norm_num

theorem reachBelow_le (hpos : 0 < mantissa) :
    (ofBinary format mantissa exponent).reachBelow ≤
      (ofBinary format mantissa exponent).numerator := by
  simp only [ofBinary]
  apply Nat.mul_le_mul_right
  split <;> omega

/-- The ends of an interval and a rational number over a common denominator. -/
theorem exists_common_denominator (hpos : 0 < mantissa) (top : ℕ) {bottom : ℕ}
    (hbottom : 0 < bottom) (format : Format) (exponent : ℤ) :
    ∃ scale : ℚ, 0 < scale ∧
      ((top * (ofBinary format mantissa exponent).denominator : ℕ) : ℚ) = top / bottom * scale ∧
      ((((ofBinary format mantissa exponent).numerator -
          (ofBinary format mantissa exponent).reachBelow) * bottom : ℕ) : ℚ) =
        ((mantissa : ℚ) - Number.reachBelow format mantissa exponent) * 2 ^ exponent * scale ∧
      ((((ofBinary format mantissa exponent).numerator +
          (ofBinary format mantissa exponent).reachAbove) * bottom : ℕ) : ℚ) =
        ((mantissa : ℚ) + 1 / 2) * 2 ^ exponent * scale := by
  have hunit := pow_toNat_eq (two_ne_zero : (2 : ℚ) ≠ 0) exponent
  have hnonzero : (bottom : ℚ) ≠ 0 := by exact_mod_cast hbottom.ne'
  refine ⟨4 * 2 ^ (-exponent).toNat * bottom, by positivity, ?_, ?_, ?_⟩
  · simp only [ofBinary, twoTo_eq]
    push_cast
    field_simp
  · rw [Nat.cast_mul, Nat.cast_sub (reachBelow_le hpos), reachBelow_ofBinary, hunit]
    simp only [ofBinary, twoTo_eq]
    push_cast
    rw [hunit]
    ring
  · simp only [ofBinary, twoTo_eq]
    push_cast
    rw [hunit]
    ring

/-- What the interval contains rounds to the number. -/
theorem roundsTo_of_contains (hpos : 0 < mantissa) {top bottom : ℕ} (hbottom : 0 < bottom)
    (hcontains : (ofBinary format mantissa exponent).contains top bottom = true) :
    RoundsTo format mantissa exponent (top / bottom) := by
  obtain ⟨scale, hscale, hvalue, hlower, hupper⟩ :=
    exists_common_denominator hpos top hbottom format exponent
  have hle {first second : ℕ} {left right : ℚ} (hfirst : (first : ℚ) = left * scale)
      (hsecond : (second : ℚ) = right * scale) : first ≤ second ↔ left ≤ right := by
    rw [← Nat.cast_le (α := ℚ), hfirst, hsecond, mul_le_mul_iff_left₀ hscale]
  have hlt {first second : ℕ} {left right : ℚ} (hfirst : (first : ℚ) = left * scale)
      (hsecond : (second : ℚ) = right * scale) : first < second ↔ left < right := by
    rw [← Nat.cast_lt (α := ℚ), hfirst, hsecond, mul_lt_mul_iff_left₀ hscale]
  rw [contains] at hcontains
  split at hcontains
  · rename_i hclosed
    have heven : mantissa % 2 = 0 := by simpa [ofBinary] using hclosed
    rw [Bool.and_eq_true, decide_eq_true_eq, decide_eq_true_eq, hle hlower hvalue,
      hle hvalue hupper] at hcontains
    exact ⟨hcontains.1, hcontains.2, fun hodd ↦ by omega⟩
  · rw [Bool.and_eq_true, decide_eq_true_eq, decide_eq_true_eq, hlt hlower hvalue,
      hlt hvalue hupper] at hcontains
    exact ⟨hcontains.1.le, hcontains.2.le, fun _ ↦ hcontains⟩

/-- What is found on a grid rounds to the number. -/
theorem roundsTo_of_nearestOnGrid? (hpos : 0 < mantissa) {place : ℤ} {decimal : Decimal}
    (hfound : (ofBinary format mantissa exponent).nearestOnGrid? place = some decimal) :
    RoundsTo format mantissa exponent decimal.value := by
  have haccepted : decimal.exponent = place ∧ (ofBinary format mantissa exponent).contains
      (decimal.coefficient * tenTo place.toNat) (tenTo (-place).toNat) = true := by
    rw [nearestOnGrid?] at hfound
    split at hfound
    · rename_i hfloor
      cases hfound
      rw [Bool.and_eq_true] at hfloor
      exact ⟨rfl, hfloor.1⟩
    · split at hfound
      · rename_i hnext
        cases hfound
        exact ⟨rfl, hnext⟩
      · cases hfound
  obtain ⟨rfl, hcontains⟩ := haccepted
  have hrounds := roundsTo_of_contains hpos (by rw [tenTo_eq]; positivity) hcontains
  have hvalue : ((decimal.coefficient * tenTo decimal.exponent.toNat : ℕ) : ℚ) /
      (tenTo (-decimal.exponent).toNat : ℕ) = decimal.value := by
    rw [tenTo_eq, tenTo_eq, Decimal.value, div_eq_iff (by positivity)]
    push_cast
    rw [pow_toNat_eq (by norm_num : (10 : ℚ) ≠ 0)]
    ring
  rwa [hvalue] at hrounds

end RoundingInterval

theorem Decimal.value_ofBinary (mantissa : ℕ) (exponent : ℤ) :
    (Decimal.ofBinary mantissa exponent).value = mantissa * 2 ^ exponent := by
  have hten : (10 : ℚ) ^ min exponent 0 * 5 ^ (-exponent).toNat = 2 ^ (min exponent 0) := by
    have hfive : (5 : ℚ) ^ (-exponent).toNat = 5 ^ (-min exponent 0) := by
      rw [← zpow_natCast]
      congr 1
      omega
    rw [hfive, show (10 : ℚ) = 2 * 5 by norm_num, mul_zpow, mul_assoc,
      ← zpow_add₀ (by norm_num : (5 : ℚ) ≠ 0), add_neg_cancel, zpow_zero, mul_one]
  have htwo : (2 : ℚ) ^ exponent.toNat * 2 ^ (min exponent 0) = 2 ^ exponent := by
    rw [← zpow_natCast, ← zpow_add₀ two_ne_zero]
    congr 1
    omega
  calc
    (Decimal.ofBinary mantissa exponent).value =
        mantissa * 2 ^ exponent.toNat * (10 ^ min exponent 0 * 5 ^ (-exponent).toNat) := by
      simp only [Decimal.value, Decimal.ofBinary, twoTo_eq, Nat.pow_eq]
      push_cast
      ring
    _ = mantissa * 2 ^ exponent := by rw [hten, mul_assoc, htwo]

/-- The chosen decimal rounds to the number that it was chosen for. -/
theorem shortest_roundsTo (hpos : 0 < mantissa) (format : Format) (exponent : ℤ) :
    RoundsTo format mantissa exponent (shortest format mantissa exponent).value := by
  rw [shortest]
  cases hfound : (RoundingInterval.ofBinary format mantissa exponent).firstGrid?
      (RoundingInterval.ofBinary format mantissa exponent).leadingExponent 17 with
  | some decimal =>
    rw [RoundingInterval.firstGrid?] at hfound
    obtain ⟨further, -, hgrid⟩ := List.exists_of_findSome?_eq_some hfound
    exact RoundingInterval.roundsTo_of_nearestOnGrid? hpos hgrid
  | none =>
    rw [Option.getD_none, Decimal.value_ofBinary]
    exact roundsTo_self format mantissa exponent

end PlantGrowth.Number
