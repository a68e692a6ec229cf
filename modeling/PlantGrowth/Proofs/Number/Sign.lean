import Mathlib
import PlantGrowth.Geometry

/-!
# Numbers without a minus

A number has no minus if its sign bit is clear, and a number that is none is counted among these.
Products of such numbers have no minus again, and neither have absolute values and what is larger
than zero. So nothing that is made of these is below zero, or the negative zero. A number that is
none is also what is not equal to itself.
-/

namespace PlantGrowth.Number

open Float.Model UnpackedFloat

variable {format : Format}

/-! ## Signs of unpacked numbers -/

/-- The sign that a number is packed with. -/
def signOf : UnpackedFloat → Sign
  | .notANumber => .positive
  | .infinity sign | .zero sign | .finite sign _ _ _ => sign

theorem signOf_roundWithAccuracy (sign : Sign) (mantissa : ℕ) (exponent : ℤ)
    (accuracy : Accuracy) :
    signOf (roundWithAccuracy format sign mantissa exponent accuracy) = sign := by
  unfold roundWithAccuracy
  simp only
  split
  · rfl
  · rfl

/-- The signs are multiplied, unless the product is none. -/
theorem signOf_mul (first second : UnpackedFloat) :
    UnpackedFloat.mul format first second = .notANumber ∨
      signOf (UnpackedFloat.mul format first second) = signOf first * signOf second := by
  cases first with
  | notANumber => exact Or.inl rfl
  | infinity sign =>
    cases second with
    | notANumber | zero => exact Or.inl rfl
    | infinity | finite => exact Or.inr rfl
  | zero sign =>
    cases second with
    | notANumber | infinity => exact Or.inl rfl
    | zero | finite => exact Or.inr rfl
  | finite sign mantissa exponent hpos =>
    cases second with
    | notANumber => exact Or.inl rfl
    | infinity | zero => exact Or.inr rfl
    | finite => exact Or.inr (signOf_roundWithAccuracy _ _ _ _)

theorem signOf_abs (number : UnpackedFloat) : signOf number.abs = .positive := by
  cases number <;> rfl

/-! ## Sign bits -/

theorem unpackSign_eq_msb (bits : BitVec format.numBits) :
    unpackSign bits = BitVec.ofBool bits.msb := by
  have hlast : format.mantissaBitsWithoutImplicit + format.exponentBits = format.numBits - 1 := by
    rw [Format.numBits]
    omega
  ext i hi
  obtain rfl : i = 0 := by omega
  simp [unpackSign, BitVec.msb_eq_getLsbD_last, hlast]

theorem unpackSign_pack (number : UnpackedFloat) :
    unpackSign (UnpackedFloat.pack format number) = (signOf number).toBitVec := by
  cases number with
  | notANumber => exact unpackSign_packComponents _ _ _
  | infinity sign => exact unpackSign_packComponents _ _ _
  | zero sign => exact unpackSign_packComponents _ _ _
  | finite sign mantissa exponent hpos =>
    rw [UnpackedFloat.pack]
    split
    · exact unpackSign_packComponents _ _ _
    · split
      · exact unpackSign_packComponents _ _ _
      · exact unpackSign_packComponents _ _ _

theorem msb_pack_eq_false_iff (number : UnpackedFloat) :
    (UnpackedFloat.pack format number).msb = false ↔ signOf number = .positive := by
  have hsign : unpackSign (UnpackedFloat.pack format number) = (signOf number).toBitVec :=
    unpackSign_pack number
  rw [unpackSign_eq_msb] at hsign
  cases hbit : (UnpackedFloat.pack format number).msb <;> cases hnumber : signOf number <;>
    simp_all [Sign.toBitVec]

/-! ## Numbers of 32 bits -/

/-- The number is none, or its sign bit is clear. -/
def Unsigned (number : Float32) : Prop :=
  number.isNaN = true ∨ number.toBits.toBitVec.msb = false

instance (number : Float32) : Decidable (Unsigned number) :=
  inferInstanceAs (Decidable (number.isNaN = true ∨ number.toBits.toBitVec.msb = false))

theorem unsigned_iff {number : Float32} :
    Unsigned number ↔ signOf number.toModel.unpack = .positive := by
  -- A number that is none is packed without a minus, so only the sign bit has to be looked at.
  have hbits : UnpackedFloat.pack Format.binary32 number.toModel.unpack =
      number.toBits.toBitVec := pack_unpack_of_valid number.toModel.valid
  have hmsb : number.toBits.toBitVec.msb = false ↔
      signOf number.toModel.unpack = .positive := by
    rw [← msb_pack_eq_false_iff, hbits]
  rw [Unsigned, hmsb]
  constructor
  · intro hunsigned
    rcases hunsigned with hnan | hsign
    · change number.toModel.unpack.isNaN = true at hnan
      cases hunpack : number.toModel.unpack with
      | notANumber => rfl
      | _ => simp [hunpack, UnpackedFloat.isNaN] at hnan
    · exact hsign
  · exact Or.inr

theorem unsigned_of_signOf {number : UnpackedFloat} (hsign : signOf number = .positive) :
    Unsigned (.ofModel (.pack number)) :=
  Or.inr ((msb_pack_eq_false_iff number).2 hsign)

theorem Unsigned.mul {first second : Float32} (hfirst : Unsigned first) (hsecond : Unsigned second) :
    Unsigned (first * second) := by
  apply unsigned_of_signOf
  rcases @signOf_mul .binary32 first.toModel.unpack second.toModel.unpack with hnan | hsign
  · rw [hnan]
    rfl
  · rw [hsign, unsigned_iff.1 hfirst, unsigned_iff.1 hsecond]
    rfl

theorem unsigned_abs (number : Float32) : Unsigned number.abs :=
  unsigned_of_signOf (signOf_abs _)

theorem lt_iff {first second : Float32} :
    first < second ↔ first.toModel.unpack.compare second.toModel.unpack = some .lt := by
  have hdecide : first < second ↔ decide (first.toModel < second.toModel) = true := Iff.rfl
  rw [hdecide, decide_eq_true_iff]
  exact beq_iff_eq

theorem beq_self_eq (number : Float32) : (number == number) = !number.isNaN := by
  have hcompare : (number == number) =
      (number.toModel.unpack.compare number.toModel.unpack == some .eq) := rfl
  have hnan : number.isNaN = number.toModel.unpack.isNaN := rfl
  rw [hcompare, hnan]
  cases number.toModel.unpack with
  | notANumber | zero sign => rfl
  | infinity sign => cases sign <;> rfl
  | finite sign mantissa exponent hpos =>
    cases sign <;> simp [UnpackedFloat.compare, UnpackedFloat.isNaN]

theorem unpack_zero : (0 : Float32).toModel.unpack = .zero .positive := rfl

theorem unsigned_of_pos {number : Float32} (hpos : 0 < number) : Unsigned number := by
  rw [lt_iff, unpack_zero] at hpos
  rw [unsigned_iff]
  cases hunpack : number.toModel.unpack with
  | notANumber => rfl
  | infinity sign | zero sign | finite sign =>
    rw [hunpack] at hpos
    cases sign with
    | positive => rfl
    | negative => cases hpos

theorem Unsigned.not_neg {number : Float32} (hunsigned : Unsigned number) : ¬ number < 0 := by
  rw [unsigned_iff] at hunsigned
  rw [lt_iff, unpack_zero]
  intro hneg
  cases hunpack : number.toModel.unpack with
  | notANumber =>
    rw [hunpack] at hneg
    cases hneg
  | infinity sign | zero sign | finite sign =>
    rw [hunpack] at hneg hunsigned
    obtain rfl : sign = .positive := hunsigned
    cases hneg

theorem Unsigned.ne_neg_zero {number : Float32} (hunsigned : Unsigned number) : number ≠ -0 := by
  intro hzero
  have hminus : ¬ Unsigned (-0) := by decide
  rw [hzero] at hunsigned
  exact hminus hunsigned

end PlantGrowth.Number
