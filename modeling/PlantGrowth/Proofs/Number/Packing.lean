import PlantGrowth.Proofs.Number.Rounding

/-!
# Packed numbers

A finite number is kept exactly when its mantissa is canonical and its exponent within the range of
the format: packing such a number and unpacking it again changes nothing, and every packed number
unpacks to one. As 64 bits have room for all mantissas and exponents of 32 bits, widening loses
nothing that narrowing needs.
-/

namespace PlantGrowth.Number

open Float.Model UnpackedFloat

/-- A canonical number with an exponent that the format has room for. -/
structure Representable (format : Format) (mantissa : ℕ) (exponent : ℤ) : Prop
    extends Canonical format mantissa exponent where
  le_max : exponent ≤ (format.exponentBias : ℤ) - format.mantissaBitsWithoutImplicit

variable {format : Format} {mantissa : ℕ} {exponent : ℤ}

/-! ## Components -/

theorem two_pow_exponentBits (format : Format) :
    2 ^ format.exponentBits = 2 * format.exponentBias + 2 := by
  obtain ⟨bits, hbits⟩ := Nat.exists_eq_add_of_lt format.he
  have hpos : 0 < 2 ^ bits := by positivity
  rw [Format.exponentBias, hbits, zero_add, Nat.add_sub_cancel, pow_succ]
  omega

theorem minExponent_eq (format : Format) :
    format.minExponent =
      1 - ((format.exponentBias : ℤ) + format.mantissaBitsWithoutImplicit) := by
  have hpos : 1 ≤ 2 ^ (format.exponentBits - 1) := Nat.one_le_two_pow
  rw [Format.minExponent, Format.exponentBias, mantissaBits_eq]
  push_cast [hpos]
  ring

/-! ## Unpacking what was packed -/

theorem toNat_implicit_append {width : ℕ} (fraction : BitVec width) :
    (1#1 ++ fraction).toNat = 2 ^ width + fraction.toNat := by
  rw [BitVec.toNat_append, ← Nat.shiftLeft_add_eq_or_of_lt fraction.isLt]
  simp [Nat.shiftLeft_eq]

theorem Canonical.log2_eq (hcanonical : Canonical format mantissa exponent)
    (hnormal : 2 ^ format.mantissaBitsWithoutImplicit ≤ mantissa) :
    mantissa.log2 + 1 = format.mantissaBits := by
  have hfits := hcanonical.fits
  rw [mantissaBits_eq] at hfits ⊢
  rw [(Nat.log2_eq_iff hcanonical.pos.ne').2 ⟨hnormal, hfits⟩]

theorem Canonical.log2_ne (hcanonical : Canonical format mantissa exponent)
    (hsubnormal : mantissa < 2 ^ format.mantissaBitsWithoutImplicit) :
    mantissa.log2 + 1 ≠ format.mantissaBits := by
  have hlog := (Nat.log2_lt hcanonical.pos.ne').2 hsubnormal
  rw [mantissaBits_eq]
  omega

theorem allOnes_ne_zero (format : Format) : (0#_ : BitVec format.exponentBits) ≠ -1#_ := by
  intro hzero
  have hnat := congrArg BitVec.toNat hzero
  have hbits := two_pow_exponentBits format
  rw [BitVec.neg_one_eq_allOnes, BitVec.toNat_allOnes, BitVec.toNat_ofNat, Nat.zero_mod] at hnat
  omega

/-- The exponent is stored with an offset that leaves room for it. -/
theorem Representable.biased_lt (hnumber : Representable format mantissa exponent) :
    ¬2 ^ format.exponentBits ≤
      (exponent + format.exponentBias + format.mantissaBitsWithoutImplicit).toNat + 1 := by
  have hmin := hnumber.min_le
  have hmax := hnumber.le_max
  have hbits := two_pow_exponentBits format
  have hleast := minExponent_eq format
  omega

/-- A mantissa that does not fill its bits is stored under the exponent zero. -/
theorem Representable.unpack_pack_subnormal (hnumber : Representable format mantissa exponent)
    (hsubnormal : mantissa < 2 ^ format.mantissaBitsWithoutImplicit) (sign : Sign) :
    UnpackedFloat.unpack format (UnpackedFloat.pack format (.finite sign mantissa exponent hnumber.pos)) =
      .finite sign mantissa exponent hnumber.pos := by
  have hleast := minExponent_eq format
  have hexponent := hnumber.normal_or_min.resolve_left (by omega)
  have hfraction : (BitVec.ofNat format.mantissaBitsWithoutImplicit mantissa).toNat = mantissa := by
    rw [BitVec.toNat_ofNat, Nat.mod_eq_of_lt hsubnormal]
  have hnonzero : BitVec.ofNat format.mantissaBitsWithoutImplicit mantissa ≠ 0#_ := by
    intro hzero
    rw [hzero, BitVec.toNat_ofNat, Nat.zero_mod] at hfraction
    exact hnumber.pos.ne hfraction
  simp only [UnpackedFloat.pack, if_neg hnumber.biased_lt, if_neg (hnumber.log2_ne hsubnormal)]
  simp only [UnpackedFloat.unpack, unpackExponent_packComponents, unpackMantissa_packComponents,
    unpackSign_packComponents, Sign.ofBitVec_toBitVec, if_neg (allOnes_ne_zero format), if_true,
    dif_neg hnonzero, hfraction]
  congr 1
  rw [BitVec.toNat_ofNat, Nat.zero_mod, hexponent, hleast]
  push_cast
  ring

/-- The leading bit of a full mantissa is not stored. -/
theorem Representable.unpack_pack_normal (hnumber : Representable format mantissa exponent)
    (hnormal : 2 ^ format.mantissaBitsWithoutImplicit ≤ mantissa) (sign : Sign) :
    UnpackedFloat.unpack format (UnpackedFloat.pack format (.finite sign mantissa exponent hnumber.pos)) =
      .finite sign mantissa exponent hnumber.pos := by
  have hmin := hnumber.min_le
  have hleast := minExponent_eq format
  have hroom := hnumber.biased_lt
  set biased := (exponent + format.exponentBias + format.mantissaBitsWithoutImplicit).toNat
    with hbiased
  have hstored : (BitVec.ofNat format.exponentBits biased).toNat = biased := by
    rw [BitVec.toNat_ofNat, Nat.mod_eq_of_lt (by omega)]
  have hones : BitVec.ofNat format.exponentBits biased ≠ -1#_ := by
    intro hones
    rw [hones, BitVec.neg_one_eq_allOnes, BitVec.toNat_allOnes] at hstored
    omega
  have hzero : BitVec.ofNat format.exponentBits biased ≠ 0#_ := by
    intro hzero
    rw [hzero, BitVec.toNat_ofNat, Nat.zero_mod] at hstored
    omega
  have hfraction : (1#1 ++ BitVec.ofNat format.mantissaBitsWithoutImplicit mantissa).toNat =
      mantissa := by
    have hfits := hnumber.fits
    rw [mantissaBits_eq, pow_succ] at hfits
    rw [toNat_implicit_append, BitVec.toNat_ofNat, Nat.mod_eq_sub_mod hnormal,
      Nat.mod_eq_of_lt (by omega)]
    omega
  simp only [UnpackedFloat.pack, ← hbiased, if_neg hroom, if_pos (hnumber.log2_eq hnormal)]
  simp only [UnpackedFloat.unpack, unpackExponent_packComponents, unpackMantissa_packComponents,
    unpackSign_packComponents, Sign.ofBitVec_toBitVec, if_neg hones, if_neg hzero, hfraction, hstored]
  congr 1
  omega

theorem Representable.unpack_pack (hnumber : Representable format mantissa exponent) (sign : Sign) :
    UnpackedFloat.unpack format (UnpackedFloat.pack format (.finite sign mantissa exponent hnumber.pos)) =
      .finite sign mantissa exponent hnumber.pos := by
  rcases Nat.lt_or_ge mantissa (2 ^ format.mantissaBitsWithoutImplicit) with hsubnormal | hnormal
  · exact hnumber.unpack_pack_subnormal hsubnormal sign
  · exact hnumber.unpack_pack_normal hnormal sign

/-! ## What packed numbers unpack to -/

/-- The stored exponent of a finite number is below the one of infinity. -/
theorem exponent_toNat_lt {bits : BitVec format.numBits} (hfinite : unpackExponent bits ≠ -1#_) :
    (unpackExponent bits).toNat + 1 < 2 ^ format.exponentBits := by
  have hlt := (unpackExponent bits).isLt
  by_contra hlast
  apply hfinite
  apply BitVec.eq_of_toNat_eq
  rw [BitVec.neg_one_eq_allOnes, BitVec.toNat_allOnes]
  omega

theorem representable_of_unpack (hwide : 1 < format.exponentBits) {bits : BitVec format.numBits}
    {sign : Sign} {hpos : 0 < mantissa}
    (hunpack : UnpackedFloat.unpack format bits = .finite sign mantissa exponent hpos) :
    Representable format mantissa exponent := by
  have hbits := two_pow_exponentBits format
  have hleast := minExponent_eq format
  have hbias : 0 < format.exponentBias := by
    have hfour : 2 ^ 2 ≤ 2 ^ format.exponentBits := Nat.pow_le_pow_right (by decide) hwide
    omega
  rw [UnpackedFloat.unpack] at hunpack
  split at hunpack
  · split at hunpack <;> cases hunpack
  · rename_i hfinite
    have hstored := exponent_toNat_lt hfinite
    have hfraction := (unpackMantissa bits).isLt
    split at hunpack
    · rename_i hzero
      split at hunpack
      · cases hunpack
      · cases hunpack
        rw [hzero, BitVec.toNat_ofNat, Nat.zero_mod]
        refine ⟨⟨hpos, ?_, ?_, Or.inr ?_⟩, ?_⟩
        · rw [mantissaBits_eq, pow_succ]
          omega
        all_goals
          rw [Nat.cast_zero]
          omega
    · rename_i hnonzero
      cases hunpack
      have hleading : 0 < (unpackExponent bits).toNat := by
        rw [BitVec.toNat_pos, BitVec.pos_iff_ne_zero]
        exact hnonzero
      rw [toNat_implicit_append]
      refine ⟨⟨?_, ?_, ?_, Or.inl ?_⟩, ?_⟩
      · positivity
      · rw [mantissaBits_eq, pow_succ]
        omega
      · omega
      · exact Nat.le_add_right _ _
      · omega

/-! ## Widening -/

/-- How many bits of a 64-bit mantissa a shorter one leaves empty. -/
def spareBits (mantissa : ℕ) : ℕ := 52 - mantissa.log2

theorem two_pow_le_spare (hpos : 0 < mantissa) (hfits : mantissa < 2 ^ 53) :
    2 ^ 52 ≤ mantissa * 2 ^ spareBits mantissa := by
  have hlog : mantissa.log2 < 53 := (Nat.log2_lt hpos.ne').2 hfits
  have hfull : mantissa.log2 + spareBits mantissa = 52 := by
    rw [spareBits]
    omega
  calc
    2 ^ 52 = 2 ^ mantissa.log2 * 2 ^ spareBits mantissa := by rw [← pow_add, hfull]
    _ ≤ mantissa * 2 ^ spareBits mantissa :=
      Nat.mul_le_mul_right _ (Nat.log2_self_le hpos.ne')

/-- A mantissa that fits into 64 bits fills them up once the spare bits are shifted out. -/
theorem representable_spare (hpos : 0 < mantissa) (hfits : mantissa < 2 ^ 53)
    (hmin : -1022 ≤ exponent) (hmax : exponent ≤ 971) :
    Representable .binary64 (mantissa * 2 ^ spareBits mantissa) (exponent - spareBits mantissa) := by
  have hlog : mantissa.log2 < 53 := (Nat.log2_lt hpos.ne').2 hfits
  have hfull : mantissa.log2 + spareBits mantissa = 52 := by
    rw [spareBits]
    omega
  refine ⟨⟨Nat.mul_pos hpos (by positivity), ?_, ?_, Or.inl ?_⟩, ?_⟩
  · calc
      mantissa * 2 ^ spareBits mantissa < 2 ^ (mantissa.log2 + 1) * 2 ^ spareBits mantissa :=
        Nat.mul_lt_mul_of_pos_right Nat.lt_log2_self (by positivity)
      _ = 2 ^ (mantissa.log2 + spareBits mantissa + 1) := by rw [← pow_add]; congr 1; omega
      _ = 2 ^ Format.binary64.mantissaBits := by rw [hfull]; rfl
  · change (-1074 : ℤ) ≤ _
    omega
  · exact two_pow_le_spare hpos hfits
  · change _ ≤ (971 : ℤ)
    omega

theorem spare_value (mantissa : ℕ) (exponent : ℤ) (count : ℕ) :
    ((mantissa * 2 ^ count : ℕ) : ℚ) * 2 ^ (exponent - count) = mantissa * 2 ^ exponent := by
  rw [zpow_sub₀ two_ne_zero, zpow_natCast]
  push_cast
  field_simp

/-- Such a number is kept by rounding. -/
theorem round_spare (hpos : 0 < mantissa)
    (hspare : Representable .binary64 (mantissa * 2 ^ spareBits mantissa)
      (exponent - spareBits mantissa)) (sign : Sign) :
    UnpackedFloat.round .binary64 sign mantissa exponent =
      .finite sign (mantissa * 2 ^ spareBits mantissa) (exponent - spareBits mantissa)
        hspare.pos := by
  apply round_eq hspare.toCanonical _ hpos
  rw [← spare_value mantissa exponent (spareBits mantissa)]
  exact roundsTo_self _ _ _

/-- The mantissa of a 32-bit number fills up a 64-bit one. -/
theorem Representable.widened (hnumber : Representable .binary32 mantissa exponent) :
    Representable .binary64 (mantissa * 2 ^ spareBits mantissa) (exponent - spareBits mantissa) := by
  have hmin : (-149 : ℤ) ≤ exponent := hnumber.min_le
  have hmax : exponent ≤ (104 : ℤ) := hnumber.le_max
  have hfits : mantissa < 2 ^ 24 := hnumber.fits
  exact representable_spare hnumber.pos (by omega) (by omega) (by omega)

theorem unpack_widen {number : Float32} {sign : Sign} {hpos : 0 < mantissa}
    (hunpack : number.toModel.unpack = .finite sign mantissa exponent hpos) :
    ∃ hwidened : Representable .binary64 (mantissa * 2 ^ spareBits mantissa)
        (exponent - spareBits mantissa),
      widen number = .ofModel (Float.Model.pack
        (.finite sign (mantissa * 2 ^ spareBits mantissa) (exponent - spareBits mantissa)
          hwidened.pos)) := by
  have hwidened := (representable_of_unpack (by decide) hunpack).widened
  exact ⟨hwidened, by rw [widen, hunpack, convert, round_spare hpos hwidened]⟩

/-- Widening is exact. -/
theorem narrow_widen (number : Float32) : narrow (widen number) = number := by
  have hpack : Float32.ofModel (Float32.Model.pack number.toModel.unpack) = number := by
    have hbits := pack_unpack_of_valid number.toModel.valid
    have hmodel : Float32.Model.pack number.toModel.unpack = number.toModel := by
      rw [Float32.Model.pack, Float32.Model.mk.injEq, Float32.Model.unpack, hbits]
    rw [hmodel]
  cases hunpack : number.toModel.unpack with
  | finite sign mantissa exponent hpos =>
    have hnumber := representable_of_unpack (by decide) hunpack
    obtain ⟨hwidened, hwiden⟩ := unpack_widen hunpack
    have hround : UnpackedFloat.round .binary32 sign (mantissa * 2 ^ spareBits mantissa)
        (exponent - spareBits mantissa) = .finite sign mantissa exponent hpos := by
      apply round_eq hnumber.toCanonical _ hwidened.pos
      rw [spare_value]
      exact roundsTo_self _ _ _
    have hmodel : (widen number).toModel.unpack = .finite sign (mantissa * 2 ^ spareBits mantissa)
        (exponent - spareBits mantissa) hwidened.pos := by
      rw [hwiden]
      exact hwidened.unpack_pack sign
    rw [narrow, hmodel, convert, hround, ← hunpack, hpack]
  -- The other kinds have one value for each sign at most.
  | infinity sign =>
    rw [hunpack] at hpack
    rw [← hpack, narrow, widen]
    cases sign <;> decide
  | zero sign =>
    rw [hunpack] at hpack
    rw [← hpack]
    cases sign <;> decide
  | notANumber =>
    rw [hunpack] at hpack
    rw [← hpack]
    decide

end PlantGrowth.Number
