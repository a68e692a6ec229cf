import PlantGrowth.Proofs.Number.Packing

/-!
# Correctly rounded quotients

A quotient is computed with enough bits and the place of its remainder, which is all that rounding
needs. So a decimal is read as the number in whose rounding interval it lies, both where its digits
and its power of ten are exact and in general.
-/

namespace PlantGrowth.Number

open Float.Model UnpackedFloat

variable {format : Format} {mantissa : ℕ} {exponent : ℤ}

/-! ## Quotients -/

theorem represents_quotient (numerator : ℕ) {denominator : ℕ} (hpos : 0 < denominator) :
    Represents (.ofMantissaAndAccuracy (numerator / denominator)
      (accuracyOfFraction (numerator % denominator) denominator)) (numerator / denominator : ℚ) := by
  have hdenominator : (0 : ℚ) < denominator := by exact_mod_cast hpos
  have hsplit : (numerator : ℚ) = denominator * (numerator / denominator : ℕ) +
      (numerator % denominator : ℕ) := by
    exact_mod_cast (Nat.div_add_mod numerator denominator).symm
  have hless : ((numerator % denominator : ℕ) : ℚ) < denominator := by
    exact_mod_cast Nat.mod_lt numerator hpos
  rw [accuracyOfFraction]
  split
  · rename_i hzero
    rw [hzero, Nat.cast_zero, add_zero] at hsplit
    change (_ : ℚ) = _
    rw [div_eq_iff hdenominator.ne', hsplit, mul_comm]
  · rename_i hrest
    have hrest' : (0 : ℚ) < (numerator % denominator : ℕ) := by
      exact_mod_cast Nat.pos_of_ne_zero hrest
    rcases hside : compare (2 * (numerator % denominator)) denominator with _ | _ | _
    · have hhalf : 2 * ((numerator % denominator : ℕ) : ℚ) < denominator := by
        exact_mod_cast Nat.compare_eq_lt.1 hside
      constructor
      · rw [lt_div_iff₀ hdenominator]
        linarith
      · rw [div_lt_iff₀ hdenominator]
        linarith
    · have hhalf : 2 * ((numerator % denominator : ℕ) : ℚ) = denominator := by
        exact_mod_cast Nat.compare_eq_eq.1 hside
      change (_ : ℚ) = _
      rw [div_eq_iff hdenominator.ne']
      linarith
    · have hhalf : (denominator : ℚ) < 2 * ((numerator % denominator : ℕ) : ℚ) := by
        exact_mod_cast Nat.compare_eq_gt.1 hside
      constructor
      · rw [lt_div_iff₀ hdenominator]
        linarith
      · rw [div_lt_iff₀ hdenominator]
        linarith

section Division

variable {first second : ℕ} {firstScale secondScale : ℤ}

/-- A quotient is not far below the quotient of the leading bits. -/
theorem two_pow_le_quotient (hfirst : 0 < first) (hsecond : 0 < second) :
    (2 : ℚ) ^ (totalExponent first firstScale - totalExponent second secondScale - 1) ≤
      first * 2 ^ firstScale / (second * 2 ^ secondScale) := by
  have hleading : (2 : ℚ) ^ (first.log2 : ℤ) ≤ first := by
    exact_mod_cast Nat.log2_self_le hfirst.ne'
  have hbounded : (second : ℚ) ≤ 2 ^ ((second.log2 : ℤ) + 1) := by
    exact_mod_cast (Nat.lt_log2_self (n := second)).le
  have hpos : (0 : ℚ) < second := by exact_mod_cast hsecond
  rw [le_div_iff₀ (by positivity)]
  calc
    (2 : ℚ) ^ (totalExponent first firstScale - totalExponent second secondScale - 1) *
        (second * 2 ^ secondScale) ≤
      (2 : ℚ) ^ (totalExponent first firstScale - totalExponent second secondScale - 1) *
        (2 ^ ((second.log2 : ℤ) + 1) * 2 ^ secondScale) := by gcongr
    _ = 2 ^ (first.log2 : ℤ) * 2 ^ firstScale := by
      rw [← zpow_add₀ two_ne_zero, ← zpow_add₀ two_ne_zero, ← zpow_add₀ two_ne_zero,
        totalExponent, totalExponent]
      congr 1
      ring
    _ ≤ first * 2 ^ firstScale := by gcongr

/-- What rounds to a normal number is no less than the smallest one. -/
theorem two_pow_min_le (hcanonical : Canonical format mantissa exponent)
    (hnormal : 2 ^ format.mantissaBitsWithoutImplicit ≤ mantissa) {number : ℚ}
    (hrounds : RoundsTo format mantissa exponent number) : (2 : ℚ) ^ format.minExponent ≤ number := by
  have htwo : (2 : ℚ) ≤ mantissa := by
    have hbits : 2 ^ 1 ≤ 2 ^ format.mantissaBitsWithoutImplicit :=
      Nat.pow_le_pow_right (by decide) format.hm
    exact_mod_cast hbits.trans hnormal
  have hreach := reachBelow_le_half format mantissa exponent
  calc
    (2 : ℚ) ^ format.minExponent ≤ 2 ^ exponent := zpow_le_zpow_right₀ one_le_two hcanonical.min_le
    _ = 1 * 2 ^ exponent := (one_mul _).symm
    _ ≤ ((mantissa : ℚ) - reachBelow format mantissa exponent) * 2 ^ exponent :=
      mul_le_mul_of_nonneg_right (by linarith) (by positivity)
    _ ≤ number := hrounds.low

/-- Shifting the numerator moves the quotient to another place. -/
theorem shifted_quotient_value {count : ℕ} {place : ℤ}
    (hcount : (count : ℤ) + place = firstScale - secondScale) :
    ((first <<< count : ℕ) : ℚ) / second * 2 ^ place =
      first * 2 ^ firstScale / (second * 2 ^ secondScale) := by
  have hpowers : (2 : ℚ) ^ count * 2 ^ place = 2 ^ firstScale / 2 ^ secondScale := by
    rw [← zpow_natCast, ← zpow_add₀ two_ne_zero, hcount, zpow_sub₀ two_ne_zero]
  rw [Nat.shiftLeft_eq]
  push_cast
  rw [mul_div_mul_comm, ← hpowers]
  ring

theorem div_eq (hcanonical : Canonical format mantissa exponent)
    (hnormal : 2 ^ format.mantissaBitsWithoutImplicit ≤ mantissa)
    (hfirst : 0 < first) (hsecond : 0 < second)
    (hrounds : RoundsTo format mantissa exponent
      (first * 2 ^ firstScale / (second * 2 ^ secondScale))) (firstSign secondSign : Sign) :
    UnpackedFloat.div format (.finite firstSign first firstScale hfirst)
        (.finite secondSign second secondScale hsecond) =
      .finite (firstSign / secondSign) mantissa exponent hcanonical.pos := by
  have hleading := @two_pow_le_quotient first second firstScale secondScale hfirst hsecond
  have hleast := two_pow_min_le hcanonical hnormal hrounds
  simp only [UnpackedFloat.div, divCore]
  set difference := totalExponent first firstScale - totalExponent second secondScale
  set place := min (firstScale - secondScale) (format.targetExponent difference) with hplace
  set count := (firstScale - secondScale - place).toNat with hcount
  have htarget : place ≤ max (difference - format.mantissaBits) format.minExponent :=
    min_le_right _ _
  have hvalue := @shifted_quotient_value first second firstScale secondScale count place (by omega)
  -- The quotient is at least one unit of the place, whichever of the two bounds decides it.
  have hunit : (2 : ℚ) ^ place ≤ first * 2 ^ firstScale / (second * 2 ^ secondScale) := by
    rcases le_max_iff.1 htarget with hbelow | hmin
    · refine (zpow_le_zpow_right₀ one_le_two ?_).trans hleading
      have hbits := mantissaBits_eq format
      omega
    · exact (zpow_le_zpow_right₀ one_le_two hmin).trans hleast
  have hrep := represents_quotient (first <<< count) hsecond
  have hpos : 0 < (first <<< count) / second := by
    have hone : (1 : ℚ) ≤ ((first <<< count : ℕ) : ℚ) / second := by
      rw [← hvalue] at hunit
      exact (le_mul_iff_one_le_left (by positivity)).1 hunit
    rw [one_le_div (by exact_mod_cast hsecond)] at hone
    exact Nat.div_pos (by exact_mod_cast hone) hsecond
  have hscale : place ≤ format.targetExponent (totalExponent (first <<< count / second) place) := by
    have hhigh := hrep.bounds.2
    rw [mantissa_ofMantissaAndAccuracy] at hhigh
    have htop := le_log2_add hhigh (hvalue ▸ hleading)
    rw [totalExponent]
    refine htarget.trans (max_le_max_right _ ?_)
    omega
  apply roundWithAccuracy_eq hcanonical hrep _ hpos hscale
  rw [hvalue]
  exact hrounds

end Division

/-! ## Decimals -/

section Decimals

variable {coefficient places : ℕ}

/-- A decimal that is not too small has no more places than its digits make up for. -/
theorem places_le_of_two_pow_min_le
    (hleast : (2 : ℚ) ^ Format.binary64.minExponent ≤ coefficient / 10 ^ places) :
    (places : ℤ) ≤ 1074 + coefficient.log2 := by
  have hdigits : (coefficient : ℚ) < 2 ^ ((coefficient.log2 : ℤ) + 1) := by
    exact_mod_cast Nat.lt_log2_self (n := coefficient)
  have hten : (2 : ℚ) ^ (places : ℤ) ≤ 10 ^ places := by
    rw [zpow_natCast]
    gcongr
    norm_num
  have hpowers : (2 : ℚ) ^ ((places : ℤ) - 1074) < 2 ^ ((coefficient.log2 : ℤ) + 1) := by
    calc
      (2 : ℚ) ^ ((places : ℤ) - 1074) = 2 ^ Format.binary64.minExponent * 2 ^ (places : ℤ) := by
        rw [← zpow_add₀ two_ne_zero, show Format.binary64.minExponent = -1074 from rfl,
          neg_add_eq_sub]
      _ ≤ 2 ^ Format.binary64.minExponent * 10 ^ places := by gcongr
      _ ≤ coefficient := (le_div_iff₀ (by positivity)).1 hleast
      _ < _ := hdigits
  have hexponents := (zpow_lt_zpow_iff_right₀ one_lt_two).1 hpowers
  omega

theorem coefficient_pos
    (hleast : (2 : ℚ) ^ Format.binary64.minExponent ≤ coefficient / 10 ^ places) :
    0 < coefficient := by
  by_contra hzero
  rw [Nat.eq_zero_of_not_pos hzero, Nat.cast_zero, zero_div] at hleast
  exact absurd hleast (not_le.2 (by positivity))

theorem ofScientific_unpacked (hcanonical : Canonical .binary64 mantissa exponent)
    (hnormal : 2 ^ Format.binary64.mantissaBitsWithoutImplicit ≤ mantissa) (hplaces : 0 < places)
    (hrounds : RoundsTo .binary64 mantissa exponent (coefficient / 10 ^ places)) :
    UnpackedFloat.ofScientific .binary64 coefficient (-(places : ℤ)) =
      .finite .positive mantissa exponent hcanonical.pos := by
  have hleast := two_pow_min_le hcanonical hnormal hrounds
  have hpos := coefficient_pos hleast
  have hroom := places_le_of_two_pow_min_le hleast
  have hbits : (2 : ℤ) ^ Format.binary64.exponentBits = 2048 := rfl
  rw [UnpackedFloat.ofScientific, dif_neg hpos.ne', if_neg (by omega), if_neg (by omega),
    if_neg (by omega)]
  apply div_eq hcanonical hnormal
  simpa using hrounds

/-- The tabulated power of ten. -/
def powerOfTen (places : ℕ) (hplaces : places < 23) : Float :=
  getElem Float.exactlyRepresentablePowersOfTen places hplaces

/-- The tabulated powers of ten are exact. -/
theorem exists_powerOfTen (hplaces : places < 23) :
    ∃ (power : ℕ) (scale : ℤ) (hpower : 0 < power),
      (powerOfTen places hplaces).toModel.unpack =
        .finite .positive power scale hpower ∧ (power : ℚ) * 2 ^ scale = 10 ^ places := by
  have hall : ∀ index : Fin 23,
      (match (powerOfTen index.val index.isLt).toModel.unpack with
        | .finite .positive power scale _ =>
          power * 2 ^ scale.toNat == 10 ^ index.val * 2 ^ (-scale).toNat
        | _ => false) = true := by
    decide
  have hentry := hall ⟨places, hplaces⟩
  split at hentry
  · rename_i power scale hpower hunpack
    refine ⟨power, scale, hpower, hunpack, ?_⟩
    have hexact : (power : ℚ) * 2 ^ scale.toNat = 10 ^ places * 2 ^ (-scale).toNat := by
      exact_mod_cast beq_iff_eq.1 hentry
    rw [pow_toNat_eq two_ne_zero, ← mul_assoc] at hexact
    exact mul_right_cancel₀ (by positivity) hexact
  · cases hentry

theorem toFloat_unpacked (hpos : 0 < coefficient) (hfits : coefficient < 2 ^ 53) :
    ∃ hspare : Representable .binary64 (coefficient * 2 ^ spareBits coefficient)
        (0 - spareBits coefficient),
      coefficient.toUInt64.toFloat.toModel.unpack =
        .finite .positive (coefficient * 2 ^ spareBits coefficient) (0 - spareBits coefficient)
          hspare.pos := by
  have hspare : Representable .binary64 (coefficient * 2 ^ spareBits coefficient)
      (0 - spareBits coefficient) := representable_spare hpos hfits (by omega) (by omega)
  refine ⟨hspare, ?_⟩
  have hsame : coefficient.toUInt64.toNat = coefficient :=
    Nat.mod_eq_of_lt (hfits.trans (by norm_num))
  have hmodel : coefficient.toUInt64.toFloat.toModel = Float.Model.pack
      (.finite .positive (coefficient * 2 ^ spareBits coefficient) (0 - spareBits coefficient)
        hspare.pos) := by
    have hsign : compare (coefficient : ℤ) 0 = .gt := Int.compare_eq_gt.2 (by exact_mod_cast hpos)
    rw [← round_spare hpos hspare]
    simp only [UInt64.toFloat, Float.Model.ofUInt64, UnpackedFloat.ofUInt64, UnpackedFloat.ofNat,
      UnpackedFloat.ofInt, UnpackedFloat.normalize, hsame, hsign, Int.toNat_natCast]
  rw [hmodel]
  exact hspare.unpack_pack _

/-- A decimal in the rounding interval of a number is read as that number. -/
theorem ofScientific_eq (hnumber : Representable .binary64 mantissa exponent)
    (hnormal : 2 ^ Format.binary64.mantissaBitsWithoutImplicit ≤ mantissa) (hplaces : 0 < places)
    (hrounds : RoundsTo .binary64 mantissa exponent (coefficient / 10 ^ places)) :
    Float.ofScientific coefficient true places =
      .ofModel (Float.Model.pack (.finite .positive mantissa exponent hnumber.pos)) := by
  have hpos := coefficient_pos (two_pow_min_le hnumber.toCanonical hnormal hrounds)
  rw [Float.ofScientific]
  split
  · rename_i hexact
    obtain ⟨power, scale, hpower, htable, hten⟩ := exists_powerOfTen (Nat.lt_succ_of_le hexact.2)
    obtain ⟨hspare, hwhole⟩ := toFloat_unpacked hpos hexact.1
    have hquotient : UnpackedFloat.div .binary64
        coefficient.toUInt64.toFloat.toModel.unpack
        (powerOfTen places (Nat.lt_succ_of_le hexact.2)).toModel.unpack =
          .finite .positive mantissa exponent hnumber.pos := by
      rw [hwhole, htable]
      apply div_eq hnumber.toCanonical hnormal
      rw [hten, spare_value]
      simpa using hrounds
    exact congrArg (fun result ↦ Float.ofModel (Float.Model.pack result)) hquotient
  · have hquotient := ofScientific_unpacked hnumber.toCanonical hnormal hplaces hrounds
    have hnegative : Int.negOfNat places = -(places : ℤ) := Int.negOfNat_eq
    rw [← hnegative] at hquotient
    exact congrArg (fun result ↦ Float.ofModel (Float.Model.pack result)) hquotient

end Decimals

end PlantGrowth.Number
