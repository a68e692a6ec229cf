import PlantGrowth.Word

/-!
# Binary numbers and their texts

A finite binary number is a sign and a value `mantissa * 2 ^ exponent`. Changing the format rounds
that value to the nearest number of the target, ties to the even mantissa; zeros and infinities
keep their sign. Widening from 32 to 64 bits is exact.

Among the decimals that round to a given binary number, the chosen one has the fewest significant
digits, and among those it is the nearest to the number; an exact tie goes to the larger one. It is
written with all its places and never with an exponent, whatever its size.
-/

namespace PlantGrowth.Number

open Float.Model

/-! ## Conversions between binary formats -/

def convert (format : Format) : UnpackedFloat → UnpackedFloat
  | .notANumber => .notANumber
  | .infinity sign => .infinity sign
  | .zero sign => .zero sign
  | .finite sign mantissa exponent _ => UnpackedFloat.round format sign mantissa exponent

/-- The 64-bit number of equal value. -/
def widen (number : Float32) : Float :=
  .ofModel (Float.Model.pack (convert .binary64 number.toModel.unpack))

/-- The nearest 32-bit number; a value beyond the finite range becomes infinite. -/
def narrow (number : Float) : Float32 :=
  .ofModel (Float32.Model.pack (convert .binary32 number.toModel.unpack))

/-- The 32-bit number nearest to an integer. -/
def ofInteger (integer : Int) : Float32 :=
  .ofModel (Float32.Model.pack (UnpackedFloat.ofInt .binary32 integer))

/-! ## Shortest decimals

The reals that round to a positive binary number form an interval reaching half a unit to either
side, or a quarter below when the number is the smallest of its binade, and the two ends belong to it
exactly when the mantissa is even. The decimals with a given number of digits form a grid, and a grid
that meets the interval does so next to the number. All quantities are natural numbers counted in a
common unit, so every comparison is exact.
-/

def twoTo (exponent : Nat) : Nat := Nat.pow 2 exponent

def tenTo (exponent : Nat) : Nat := Nat.pow 10 exponent

/-- The number `coefficient * 10 ^ exponent`. -/
structure Decimal where
  coefficient : Nat
  exponent : Int
  deriving DecidableEq, Repr

/-- The positive rational `numerator / denominator` and the rationals around it that round to the
same binary number, all over the same denominator. -/
structure RoundingInterval where
  numerator : Nat
  denominator : Nat
  reachBelow : Nat
  reachAbove : Nat
  closed : Bool
  deriving DecidableEq, Repr

namespace RoundingInterval

/-- The interval of `mantissa * 2 ^ exponent`, with numerators in quarters of a unit. -/
def ofBinary (format : Format) (mantissa : Nat) (exponent : Int) : RoundingInterval :=
  let lowestOfBinade :=
    mantissa == twoTo format.mantissaBitsWithoutImplicit && format.minExponent < exponent
  let unit := twoTo exponent.toNat
  { numerator := 4 * mantissa * unit
    denominator := 4 * twoTo (-exponent).toNat
    reachBelow := (if lowestOfBinade then 1 else 2) * unit
    reachAbove := 2 * unit
    closed := mantissa % 2 == 0 }

/-- Does the rational `top / bottom` round to the number? -/
def contains (interval : RoundingInterval) (top bottom : Nat) : Bool :=
  let value := top * interval.denominator
  let lower := (interval.numerator - interval.reachBelow) * bottom
  let upper := (interval.numerator + interval.reachAbove) * bottom
  if interval.closed then lower ≤ value && value ≤ upper else lower < value && value < upper

/-- The exponent of the leading decimal digit. -/
def leadingExponent (interval : RoundingInterval) : Int :=
  if interval.denominator ≤ interval.numerator then
    ((Nat.toDigits 10 (interval.numerator / interval.denominator)).length : Int) - 1
  else
    let places := (Nat.toDigits 10 (interval.denominator / interval.numerator)).length
    if interval.denominator ≤ interval.numerator * tenTo (places - 1) then
      1 - (places : Int)
    else
      -(places : Int)

/-- The better of the two multiples of `10 ^ exponent` around the number, if either rounds to it. -/
def nearestOnGrid? (interval : RoundingInterval) (exponent : Int) : Option Decimal :=
  let raised := tenTo exponent.toNat
  let lowered := tenTo (-exponent).toNat
  let steps := interval.numerator * lowered
  let stride := interval.denominator * raised
  let floor := steps / stride
  let accepted (coefficient : Nat) := interval.contains (coefficient * raised) lowered
  let excess := 2 * (steps % stride)
  if accepted floor && (excess < stride || !accepted (floor + 1)) then some ⟨floor, exponent⟩
  else if accepted (floor + 1) then some ⟨floor + 1, exponent⟩
  else none

/-- Tries one digit, then two, and so on. -/
def firstGrid? (interval : RoundingInterval) (leading : Int) (digits : Nat) : Option Decimal :=
  (List.range digits).findSome? fun further : Nat => interval.nearestOnGrid? (leading - further)

end RoundingInterval

/-- Every binary number is itself a decimal. -/
def Decimal.ofBinary (mantissa : Nat) (exponent : Int) : Decimal :=
  ⟨mantissa * twoTo exponent.toNat * Nat.pow 5 (-exponent).toNat, min exponent 0⟩

/-- Seventeen digits always suffice for 64 bits; beyond that the exact decimal stands in. -/
def shortest (format : Format) (mantissa : Nat) (exponent : Int) : Decimal :=
  let interval := RoundingInterval.ofBinary format mantissa exponent
  (interval.firstGrid? interval.leadingExponent 17).getD (Decimal.ofBinary mantissa exponent)

/-! ## Positional text -/

/-- What two otherwise equal ways of writing numbers disagree on. -/
structure NumberStyle where
  afterWhole : Word
  notANumber : Word
  deriving DecidableEq, Repr

def digits (number : Nat) : Word := Nat.toDigits 10 number

namespace Decimal

/-- The digits before the point. -/
def wholePart (decimal : Decimal) : Word :=
  digits (decimal.coefficient * tenTo decimal.exponent.toNat / tenTo (-decimal.exponent).toNat)

/-- The digits after the point, without trailing zeros. -/
def fractionPart (decimal : Decimal) : Word :=
  let places := (-decimal.exponent).toNat
  let written := digits (decimal.coefficient % tenTo places)
  let padded := List.replicate (places - written.length) '0' ++ written
  (padded.reverse.dropWhile (· == '0')).reverse

def text (style : NumberStyle) (decimal : Decimal) : Word :=
  match decimal.fractionPart with
  | [] => decimal.wholePart ++ style.afterWhole
  | fraction => decimal.wholePart ++ '.' :: fraction

end Decimal

def signText : UnpackedFloat.Sign → Word
  | .negative => ['-']
  | .positive => []

def text (style : NumberStyle) (format : Format) : UnpackedFloat → Word
  | .notANumber => style.notANumber
  | .infinity sign => signText sign ++ ['i', 'n', 'f']
  | .zero sign => signText sign ++ '0' :: style.afterWhole
  | .finite sign mantissa exponent _ =>
    signText sign ++ (shortest format mantissa exponent).text style

/-- Messages write a whole number as an integer. -/
def messageStyle : NumberStyle := ⟨[], "NaN".toList⟩

/-- Documents write a whole number with one zero after the point. -/
def documentStyle : NumberStyle := ⟨".0".toList, "nan".toList⟩

def messageText (number : Float32) : Word :=
  text messageStyle .binary32 number.toModel.unpack

def documentText (number : Float) : Word :=
  text documentStyle .binary64 number.toModel.unpack

end PlantGrowth.Number
