import Mathlib
import PlantGrowth.Number

/-!
# Correct rounding

A mantissa with two residual bits stands for a rational number: exactly, or up to the half between
two neighbouring mantissas that it lies in. Shifts keep that meaning, so rounding is decided by the
rational alone. Every rational in the rounding interval of a canonical number is rounded to it, with
the carry that a rational just below a power of two makes.
-/

namespace PlantGrowth.Number

open Float.Model UnpackedFloat

/-- The powers on the two sides of a fraction make up a power with an exponent of either sign. -/
theorem pow_toNat_eq {base : ℚ} (hbase : base ≠ 0) (exponent : ℤ) :
    base ^ exponent.toNat = base ^ exponent * base ^ (-exponent).toNat := by
  rcases Int.le_total 0 exponent with hnonneg | hneg
  · have hzero : (-exponent).toNat = 0 := by omega
    rw [hzero, pow_zero, mul_one, ← zpow_natCast, Int.toNat_of_nonneg hnonneg]
  · have hzero : exponent.toNat = 0 := by omega
    rw [hzero, pow_zero, ← zpow_natCast base (-exponent).toNat, Int.toNat_of_nonneg (by omega),
      ← zpow_add₀ hbase, add_neg_cancel, zpow_zero]

/-! ## Residual bits -/

/-- The rational number is the one, or one of those, that a mantissa with residual bits stands for. -/
def Represents (extended : ExtendedMantissa) (number : ℚ) : Prop :=
  match extended with
  | ⟨mantissa, false, false⟩ => number = mantissa
  | ⟨mantissa, false, true⟩ => mantissa < number ∧ number < mantissa + 1 / 2
  | ⟨mantissa, true, false⟩ => number = mantissa + 1 / 2
  | ⟨mantissa, true, true⟩ => mantissa + 1 / 2 < number ∧ number < mantissa + 1

variable {extended : ExtendedMantissa} {number : ℚ}

theorem represents_exact (mantissa : ℕ) :
    Represents (.ofMantissaAndAccuracy mantissa .exact) mantissa :=
  rfl

theorem Represents.bounds (hrep : Represents extended number) :
    (extended.mantissa : ℚ) ≤ number ∧ number < extended.mantissa + 1 := by
  rcases extended with ⟨mantissa, round, sticky⟩
  cases round <;> cases sticky <;> simp only [Represents] at hrep ⊢ <;> constructor <;> linarith

@[simp]
theorem mantissa_ofMantissaAndAccuracy (mantissa : ℕ) (accuracy : Accuracy) :
    (ExtendedMantissa.ofMantissaAndAccuracy mantissa accuracy).mantissa = mantissa := by
  cases accuracy with
  | exact => rfl
  | inexact side => cases side <;> rfl

theorem Represents.shiftRightOne (hrep : Represents extended number) :
    Represents extended.shiftRightOne (number / 2) := by
  rcases extended with ⟨mantissa, round, sticky⟩
  have hhalves : (mantissa : ℚ) = (mantissa % 2 : ℕ) + 2 * (mantissa / 2 : ℕ) := by
    exact_mod_cast (Nat.mod_add_div mantissa 2).symm
  rcases Nat.mod_two_eq_zero_or_one mantissa with heven | hodd
  · rw [heven] at hhalves
    cases round <;> cases sticky <;>
      simp_all [Represents, ExtendedMantissa.shiftRightOne] <;> constructor <;> linarith
  · rw [hodd] at hhalves
    cases round <;> cases sticky <;>
      simp_all [Represents, ExtendedMantissa.shiftRightOne] <;> (try constructor) <;> linarith

theorem Represents.shiftRight (hrep : Represents extended number) (count : ℕ) :
    Represents (extended >>> count) (number / 2 ^ count) := by
  change Represents (count.repeat ExtendedMantissa.shiftRightOne extended) _
  induction count with
  | zero => simpa [Nat.repeat] using hrep
  | succ count ih =>
    rw [Nat.repeat, pow_succ, ← div_div]
    exact ih.shiftRightOne

/-- The mantissa is rounded to the nearest whole number, and a half to the even one. -/
theorem Represents.roundedMantissa_eq (hrep : Represents extended number) {mantissa : ℕ}
    (hlow : (mantissa : ℚ) - 1 / 2 ≤ number) (hhigh : number ≤ mantissa + 1 / 2)
    (hends : mantissa % 2 = 1 → (mantissa : ℚ) - 1 / 2 < number ∧ number < mantissa + 1 / 2) :
    extended.roundedMantissa = mantissa := by
  rcases extended with ⟨kept, round, sticky⟩
  have hrange : (mantissa : ℚ) < kept + 2 ∧ (kept : ℚ) < mantissa + 1 := by
    have hbounds := hrep.bounds
    constructor <;> linarith
  have hnear : mantissa = kept ∨ mantissa = kept + 1 := by
    have hleft : mantissa < kept + 2 := by exact_mod_cast hrange.1
    have hright : kept < mantissa + 1 := by exact_mod_cast hrange.2
    omega
  rcases hnear with rfl | rfl
  · cases round <;> cases sticky <;> simp only [Represents] at hrep
    · rfl
    · rfl
    · have heven : mantissa % 2 = 0 := by
        by_contra hodd
        have hinside := hends (by omega)
        linarith
      simp [ExtendedMantissa.roundedMantissa, ExtendedMantissa.accuracy,
        Accuracy.roundToNearestEven, heven]
    · linarith
  · push_cast at hlow hends
    cases round <;> cases sticky <;> simp only [Represents] at hrep
    · linarith
    · linarith
    · have hodd : kept % 2 = 1 := by
        by_contra heven
        have hinside := hends (by omega)
        linarith
      simp [ExtendedMantissa.roundedMantissa, ExtendedMantissa.accuracy,
        Accuracy.roundToNearestEven, hodd]
    · rfl

/-! ## Canonical numbers -/

/-- The mantissa fills its bits unless the exponent is the least one. -/
structure Canonical (format : Format) (mantissa : ℕ) (exponent : ℤ) : Prop where
  pos : 0 < mantissa
  fits : mantissa < 2 ^ format.mantissaBits
  min_le : format.minExponent ≤ exponent
  normal_or_min : 2 ^ format.mantissaBitsWithoutImplicit ≤ mantissa ∨ exponent = format.minExponent

/-- How far the rounding interval reaches below the number, in units of its last place. -/
def reachBelow (format : Format) (mantissa : ℕ) (exponent : ℤ) : ℚ :=
  if mantissa = 2 ^ format.mantissaBitsWithoutImplicit ∧ format.minExponent < exponent then 1 / 4
  else 1 / 2

/-- The number lies in the interval of the numbers that round to a canonical one. -/
structure RoundsTo (format : Format) (mantissa : ℕ) (exponent : ℤ) (number : ℚ) : Prop where
  low : ((mantissa : ℚ) - reachBelow format mantissa exponent) * 2 ^ exponent ≤ number
  high : number ≤ ((mantissa : ℚ) + 1 / 2) * 2 ^ exponent
  ends : mantissa % 2 = 1 →
    ((mantissa : ℚ) - reachBelow format mantissa exponent) * 2 ^ exponent < number ∧
      number < ((mantissa : ℚ) + 1 / 2) * 2 ^ exponent

variable {format : Format} {mantissa : ℕ} {exponent : ℤ}

theorem reachBelow_pos (format : Format) (mantissa : ℕ) (exponent : ℤ) :
    0 < reachBelow format mantissa exponent := by
  rw [reachBelow]
  split <;> norm_num

theorem reachBelow_le_half (format : Format) (mantissa : ℕ) (exponent : ℤ) :
    reachBelow format mantissa exponent ≤ 1 / 2 := by
  rw [reachBelow]
  split <;> norm_num

/-- A canonical number rounds to itself. -/
theorem roundsTo_self (format : Format) (mantissa : ℕ) (exponent : ℤ) :
    RoundsTo format mantissa exponent (mantissa * 2 ^ exponent) := by
  have hunit : (0 : ℚ) < 2 ^ exponent := by positivity
  have hreach := reachBelow_pos format mantissa exponent
  constructor
  · nlinarith
  · nlinarith
  · intro _
    constructor <;> nlinarith

/-! ## The place of the leading bit -/

section Leading

variable {start : ℕ} {scale place : ℤ}

theorem le_log2_add (hhigh : number < start + 1) (hplace : (2 : ℚ) ^ place ≤ number * 2 ^ scale) :
    place ≤ (start.log2 : ℤ) + scale := by
  have hstart : (start : ℚ) + 1 ≤ 2 ^ ((start.log2 : ℤ) + 1) := by
    exact_mod_cast Nat.lt_log2_self (n := start)
  have hbelow : (2 : ℚ) ^ place < 2 ^ ((start.log2 : ℤ) + 1 + scale) := by
    calc
      _ ≤ number * 2 ^ scale := hplace
      _ < 2 ^ ((start.log2 : ℤ) + 1) * 2 ^ scale := by
        apply mul_lt_mul_of_pos_right _ (by positivity)
        linarith
      _ = _ := by rw [← zpow_add₀ two_ne_zero]
  have hexponents := (zpow_lt_zpow_iff_right₀ one_lt_two).1 hbelow
  omega

theorem log2_add_lt (hpos : 0 < start) (hlow : (start : ℚ) ≤ number)
    (hplace : number * 2 ^ scale < (2 : ℚ) ^ place) : (start.log2 : ℤ) + scale < place := by
  have hstart : (2 : ℚ) ^ (start.log2 : ℤ) ≤ start := by
    exact_mod_cast Nat.log2_self_le hpos.ne'
  have hbelow : (2 : ℚ) ^ ((start.log2 : ℤ) + scale) < 2 ^ place := by
    calc
      _ = (2 : ℚ) ^ (start.log2 : ℤ) * 2 ^ scale := by rw [zpow_add₀ two_ne_zero]
      _ ≤ number * 2 ^ scale := by
        apply mul_le_mul_of_nonneg_right _ (by positivity)
        linarith
      _ < 2 ^ place := hplace
  exact (zpow_lt_zpow_iff_right₀ one_lt_two).1 hbelow

end Leading

/-! ## Rounding -/

section Rounding

variable {start : ℕ} {scale : ℤ}

theorem mantissaBits_eq (format : Format) :
    format.mantissaBits = format.mantissaBitsWithoutImplicit + 1 :=
  Nat.add_comm _ _

/-- The leading bit decides the exponent. -/
theorem targetExponent_totalExponent (format : Format) (start : ℕ) (scale : ℤ) :
    format.targetExponent (totalExponent start scale) =
      max ((start.log2 : ℤ) + scale - format.mantissaBitsWithoutImplicit) format.minExponent := by
  rw [Format.targetExponent, totalExponent, mantissaBits_eq]
  congr 1
  push_cast
  ring

/-- Only the smallest mantissa has numbers of a lower binade in its interval. -/
theorem RoundsTo.eq_smallest (hrounds : RoundsTo format mantissa exponent number)
    (hnormal : 2 ^ format.mantissaBitsWithoutImplicit ≤ mantissa)
    (hbelow : number < (2 : ℚ) ^ (format.mantissaBitsWithoutImplicit + exponent)) :
    mantissa = 2 ^ format.mantissaBitsWithoutImplicit := by
  have hinside : (mantissa : ℚ) - reachBelow format mantissa exponent <
      2 ^ format.mantissaBitsWithoutImplicit := by
    rw [zpow_add₀ two_ne_zero, zpow_natCast] at hbelow
    exact lt_of_mul_lt_mul_right (hrounds.low.trans_lt hbelow) (by positivity)
  have hreach := reachBelow_le_half format mantissa exponent
  have hnext : (mantissa : ℚ) < 2 ^ format.mantissaBitsWithoutImplicit + 1 := by linarith
  have hbound : mantissa < 2 ^ format.mantissaBitsWithoutImplicit + 1 := by exact_mod_cast hnext
  omega

/-- The interval of a smallest mantissa stays within the next lower binade. -/
theorem RoundsTo.half_binade_le (hrounds : RoundsTo format mantissa exponent number)
    (hsmallest : mantissa = 2 ^ format.mantissaBitsWithoutImplicit)
    (hmore : format.minExponent < exponent) :
    (2 : ℚ) ^ ((format.mantissaBitsWithoutImplicit : ℤ) - 1 + exponent) ≤ number := by
  have hquarter := hrounds.low
  rw [reachBelow, if_pos ⟨hsmallest, hmore⟩] at hquarter
  have hone : (1 : ℚ) ≤ mantissa := by
    rw [hsmallest]
    exact_mod_cast Nat.one_le_two_pow
  calc
    (2 : ℚ) ^ ((format.mantissaBitsWithoutImplicit : ℤ) - 1 + exponent) =
        (mantissa : ℚ) / 2 * 2 ^ exponent := by
      rw [zpow_add₀ two_ne_zero, zpow_sub₀ two_ne_zero, hsmallest]
      norm_num
    _ ≤ ((mantissa : ℚ) - 1 / 4) * 2 ^ exponent :=
      mul_le_mul_of_nonneg_right (by linarith) (by positivity)
    _ ≤ number := hquarter

/-- The leading bit of a number lies below that of the mantissa after the one it is rounded to. -/
theorem RoundsTo.log2_add_lt (hrounds : RoundsTo format mantissa exponent (number * 2 ^ scale))
    (hpos : 0 < start) (hlow : (start : ℚ) ≤ number) {bits : ℤ}
    (hbits : (mantissa : ℚ) + 1 ≤ 2 ^ bits) : (start.log2 : ℤ) + scale < bits + exponent := by
  apply Number.log2_add_lt hpos hlow
  have hunit : (0 : ℚ) < 2 ^ exponent := by positivity
  calc
    number * 2 ^ scale ≤ ((mantissa : ℚ) + 1 / 2) * 2 ^ exponent := hrounds.high
    _ < ((mantissa : ℚ) + 1) * 2 ^ exponent := mul_lt_mul_of_pos_right (by linarith) hunit
    _ ≤ 2 ^ bits * 2 ^ exponent := mul_le_mul_of_nonneg_right hbits hunit.le
    _ = 2 ^ (bits + exponent) := by rw [zpow_add₀ two_ne_zero]

/-- The exponent is that of the canonical number or, just below a power of two, one less. -/
theorem targetExponent_of_roundsTo (hcanonical : Canonical format mantissa exponent)
    (hrounds : RoundsTo format mantissa exponent (number * 2 ^ scale)) (hpos : 0 < start)
    (hlow : (start : ℚ) ≤ number) (hhigh : number < start + 1) :
    format.targetExponent (totalExponent start scale) = exponent ∨
      (mantissa = 2 ^ format.mantissaBitsWithoutImplicit ∧ format.minExponent < exponent ∧
        number * 2 ^ scale < mantissa * 2 ^ exponent ∧
        format.targetExponent (totalExponent start scale) = exponent - 1) := by
  have hmin := hcanonical.min_le
  rw [targetExponent_totalExponent]
  by_cases hnormal : 2 ^ format.mantissaBitsWithoutImplicit ≤ mantissa
  · have htop : (start.log2 : ℤ) + scale < format.mantissaBitsWithoutImplicit + 1 + exponent := by
      apply hrounds.log2_add_lt hpos hlow
      have hfits := hcanonical.fits
      rw [mantissaBits_eq] at hfits
      exact_mod_cast hfits
    by_cases hbelow : number * 2 ^ scale < (2 : ℚ) ^ (format.mantissaBitsWithoutImplicit + exponent)
    · have hsmallest := hrounds.eq_smallest hnormal hbelow
      have hlower := log2_add_lt hpos hlow hbelow
      rcases hmin.eq_or_lt with hleast | hmore
      · left
        omega
      · right
        have hbottom := le_log2_add hhigh (hrounds.half_binade_le hsmallest hmore)
        refine ⟨hsmallest, hmore, ?_, by omega⟩
        rw [zpow_add₀ two_ne_zero, zpow_natCast] at hbelow
        rw [hsmallest]
        exact_mod_cast hbelow
    · left
      have hbottom := le_log2_add hhigh (not_lt.1 hbelow)
      omega
  · -- The mantissa does not fill its bits, so the least exponent decides.
    left
    have htop : (start.log2 : ℤ) + scale < format.mantissaBitsWithoutImplicit + exponent := by
      apply hrounds.log2_add_lt hpos hlow
      exact_mod_cast Nat.lt_of_not_le hnormal
    have hleast := hcanonical.normal_or_min.resolve_left hnormal
    omega

/-- A canonical number has the exponent that it asks for. -/
theorem Canonical.targetExponent_eq (hcanonical : Canonical format mantissa exponent) :
    format.targetExponent (totalExponent mantissa exponent) = exponent := by
  rcases targetExponent_of_roundsTo hcanonical (roundsTo_self format mantissa exponent)
    hcanonical.pos (le_refl _) (lt_add_one _) with heq | ⟨-, -, hlt, -⟩
  · exact heq
  · exact absurd hlt (lt_irrefl _)

theorem shiftToTargetExponent_snd (accuracy : Accuracy)
    (hscale : scale ≤ format.targetExponent (totalExponent start scale)) :
    (shiftToTargetExponent format start scale accuracy).2 =
      format.targetExponent (totalExponent start scale) := by
  simp only [shiftToTargetExponent, shiftToExponent]
  omega

/-- A canonical number needs no shift. -/
theorem shiftToTargetExponent_canonical (hcanonical : Canonical format mantissa exponent) :
    shiftToTargetExponent format mantissa exponent .exact = (⟨mantissa, false, false⟩, exponent) := by
  simp only [shiftToTargetExponent, hcanonical.targetExponent_eq, shiftToExponent, sub_self,
    Int.toNat_zero, Nat.cast_zero, add_zero]
  rfl

/-- A carry is shifted back. -/
theorem shiftToTargetExponent_carry (hmin : format.minExponent ≤ scale) :
    shiftToTargetExponent format (2 ^ format.mantissaBits) scale .exact =
      (⟨2 ^ format.mantissaBitsWithoutImplicit, false, false⟩, scale + 1) := by
  have htarget : format.targetExponent (totalExponent (2 ^ format.mantissaBits) scale) =
      scale + 1 := by
    rw [Format.targetExponent, totalExponent, Nat.log2_two_pow]
    omega
  have hone : (scale + 1 - scale).toNat = 1 := by omega
  simp only [shiftToTargetExponent, htarget, shiftToExponent, hone]
  simp [HShiftRight.hShiftRight, Nat.repeat, ExtendedMantissa.ofMantissaAndAccuracy,
    ExtendedMantissa.shiftRightOne, mantissaBits_eq, pow_succ]

/-- The first shift keeps what is represented, in units of the place that it leads to. -/
theorem represents_shiftToTargetExponent {accuracy : Accuracy}
    (hrep : Represents (.ofMantissaAndAccuracy start accuracy) number)
    (hscale : scale ≤ format.targetExponent (totalExponent start scale)) :
    Represents (shiftToTargetExponent format start scale accuracy).1
      (number * 2 ^ scale / 2 ^ format.targetExponent (totalExponent start scale)) := by
  have hshift := hrep.shiftRight
    (format.targetExponent (totalExponent start scale) - scale).toNat
  have hunits : number / 2 ^ (format.targetExponent (totalExponent start scale) - scale).toNat =
      number * 2 ^ scale / 2 ^ format.targetExponent (totalExponent start scale) := by
    rw [← zpow_natCast, Int.toNat_of_nonneg (by omega), zpow_sub₀ two_ne_zero]
    field_simp
  rw [hunits] at hshift
  exact hshift

theorem roundWithAccuracy_of_shifts {accuracy : Accuracy} {rounded : ℕ} {place : ℤ}
    (hfirst : (shiftToTargetExponent format start scale accuracy).1.roundedMantissa = rounded)
    (hplace : (shiftToTargetExponent format start scale accuracy).2 = place)
    (hsecond : shiftToTargetExponent format rounded place .exact =
      (⟨mantissa, false, false⟩, exponent)) (hpos : 0 < mantissa) (sign : Sign) :
    roundWithAccuracy format sign start scale accuracy = .finite sign mantissa exponent hpos := by
  simp only [roundWithAccuracy, hfirst, hplace, hsecond, hpos.ne', dite_false]

/-- At the exponent of a canonical number, its rounding interval is rounded to its mantissa. -/
theorem RoundsTo.roundedMantissa_eq (hrounds : RoundsTo format mantissa exponent number)
    (hrep : Represents extended (number / 2 ^ exponent)) :
    extended.roundedMantissa = mantissa := by
  have hunit : (0 : ℚ) < 2 ^ exponent := by positivity
  have hreach := reachBelow_le_half format mantissa exponent
  apply hrep.roundedMantissa_eq
  · rw [le_div_iff₀ hunit]
    have hlow := hrounds.low
    nlinarith
  · rw [div_le_iff₀ hunit]
    exact hrounds.high
  · intro hodd
    obtain ⟨hlow, hhigh⟩ := hrounds.ends hodd
    rw [lt_div_iff₀ hunit, div_lt_iff₀ hunit]
    exact ⟨by nlinarith, hhigh⟩

/-- At the next finer exponent, the interval below a power of two is rounded up to it. -/
theorem RoundsTo.roundedMantissa_eq_carry (hrounds : RoundsTo format mantissa exponent number)
    (hsmallest : mantissa = 2 ^ format.mantissaBitsWithoutImplicit)
    (hmore : format.minExponent < exponent) (hbelow : number < mantissa * 2 ^ exponent)
    (hrep : Represents extended (number / 2 ^ (exponent - 1))) :
    extended.roundedMantissa = 2 ^ format.mantissaBits := by
  have hunit : (0 : ℚ) < 2 ^ (exponent - 1) := by positivity
  have hquarter : (2 : ℚ) ^ exponent = 2 * 2 ^ (exponent - 1) := by
    rw [zpow_sub₀ two_ne_zero]
    ring
  have htwice : (mantissa : ℚ) * 2 ^ exponent =
      (2 ^ format.mantissaBits : ℕ) * 2 ^ (exponent - 1) := by
    rw [hsmallest, mantissaBits_eq, hquarter]
    push_cast
    ring
  have hlow := hrounds.low
  rw [reachBelow, if_pos ⟨hsmallest, hmore⟩] at hlow
  apply hrep.roundedMantissa_eq
  · rw [le_div_iff₀ hunit]
    nlinarith
  · rw [div_le_iff₀ hunit]
    nlinarith
  · intro hodd
    rw [mantissaBits_eq, pow_succ] at hodd
    omega

theorem roundWithAccuracy_eq (hcanonical : Canonical format mantissa exponent)
    {accuracy : Accuracy} (hrep : Represents (.ofMantissaAndAccuracy start accuracy) number)
    (hrounds : RoundsTo format mantissa exponent (number * 2 ^ scale)) (hpos : 0 < start)
    (hscale : scale ≤ format.targetExponent (totalExponent start scale)) (sign : Sign) :
    roundWithAccuracy format sign start scale accuracy =
      .finite sign mantissa exponent hcanonical.pos := by
  have hbounds := hrep.bounds
  rw [mantissa_ofMantissaAndAccuracy] at hbounds
  have hshifted := represents_shiftToTargetExponent hrep hscale
  have hplace := shiftToTargetExponent_snd accuracy hscale
  rcases targetExponent_of_roundsTo hcanonical hrounds hpos hbounds.1 hbounds.2 with
    htarget | ⟨hsmallest, hmore, hbelow, htarget⟩
  · rw [htarget] at hshifted hplace
    exact roundWithAccuracy_of_shifts (hrounds.roundedMantissa_eq hshifted) hplace
      (shiftToTargetExponent_canonical hcanonical) hcanonical.pos sign
  · -- At the finer scale the number rounds up to the power of two, which is even and carries.
    rw [htarget] at hshifted hplace
    have hrounded := hrounds.roundedMantissa_eq_carry hsmallest hmore hbelow hshifted
    have hcarry := @shiftToTargetExponent_carry format (exponent - 1) (by omega)
    rw [sub_add_cancel, ← hsmallest] at hcarry
    exact roundWithAccuracy_of_shifts hrounded hplace hcarry hcanonical.pos sign

theorem totalExponent_shiftLeft (hpos : 0 < start) (count : ℕ) :
    totalExponent (start <<< count) (scale - count) = totalExponent start scale := by
  have hlog : (start <<< count).log2 = start.log2 + count := by
    induction count with
    | zero => rfl
    | succ count ih =>
      have hne : start <<< count ≠ 0 := by
        rw [Nat.shiftLeft_eq]
        positivity
      rw [Nat.shiftLeft_succ, Nat.log2_two_mul hne, ih]
      rfl
  rw [totalExponent, totalExponent, hlog]
  push_cast
  ring

/-- What lies in the rounding interval of a canonical number is rounded to it. -/
theorem round_eq (hcanonical : Canonical format mantissa exponent)
    (hrounds : RoundsTo format mantissa exponent (start * 2 ^ scale)) (hpos : 0 < start)
    (sign : Sign) :
    UnpackedFloat.round format sign start scale =
      .finite sign mantissa exponent hcanonical.pos := by
  rw [UnpackedFloat.round]
  set count := (scale - format.targetExponent (totalExponent start scale)).toNat with hcount
  have htotal := @totalExponent_shiftLeft start scale hpos count
  have hunits : ((start <<< count : ℕ) : ℚ) * 2 ^ (scale - count) = start * 2 ^ scale := by
    rw [Nat.shiftLeft_eq, zpow_sub₀ two_ne_zero, zpow_natCast]
    push_cast
    field_simp
  apply roundWithAccuracy_eq hcanonical (represents_exact (start <<< count))
  · rw [hunits]
    exact hrounds
  · rw [Nat.shiftLeft_eq]
    positivity
  · rw [htotal]
    omega

end Rounding

end PlantGrowth.Number
