import PlantGrowth.Toml.Value

/-!
# Unquoted scalars

Booleans, integers, floats, dates and times are written without quotes, as a run of letters,
digits and the signs that numbers and dates use. Digits may be grouped by single underscores.
-/

namespace PlantGrowth.Toml

namespace Scalar

def isTokenSymbol (symbol : Char) : Bool :=
  symbol.isAlphanum || symbol == '_' || symbol == '+' || symbol == '-' || symbol == '.' ||
    symbol == ':'

/-! ## Digits -/

/-- The value of a digit, letters counting from ten. -/
def digitValue (symbol : Char) : Nat :=
  if symbol.isDigit then symbol.toNat - '0'.toNat else symbol.toLower.toNat - 'a'.toNat + 10

def isDigitOf (base : Nat) (symbol : Char) : Bool := symbol.isAlphanum && digitValue symbol < base

/-- Removes the underscores of a group of digits. An underscore stands between two digits, and
`afterDigit` says that one may come next. -/
def ungroup (base : Nat) (afterDigit : Bool) : Word → Option Word
  | [] => if afterDigit then some [] else none
  | symbol :: rest =>
    if isDigitOf base symbol then (ungroup base true rest).map (symbol :: ·)
    else if symbol == '_' && afterDigit then ungroup base false rest
    else none

def numberOf (base : Nat) (digits : Word) : Nat :=
  digits.foldl (fun number digit => number * base + digitValue digit) 0

def grouped? (base : Nat) (text : Word) : Option Nat := (ungroup base false text).map (numberOf base)

/-- The digits of a decimal whole number, which has no leading zero. -/
def wholeDigits? (text : Word) : Option Word :=
  match ungroup 10 false text with
  | some ('0' :: _ :: _) => none
  | digits => digits

/-- Splits off a sign; `true` stands for a minus. -/
def splitSign : Word → Bool × Word
  | '-' :: rest => (true, rest)
  | '+' :: rest => (false, rest)
  | text => (false, text)

/-! ## Numbers -/

def inRange? (number : Int) : Option Int :=
  if Value.integerInRange number then some number else none

def integer? (text : Word) : Option Int :=
  match text with
  | '0' :: 'x' :: digits => (grouped? 16 digits).bind fun number => inRange? number
  | '0' :: 'o' :: digits => (grouped? 8 digits).bind fun number => inRange? number
  | '0' :: 'b' :: digits => (grouped? 2 digits).bind fun number => inRange? number
  | _ =>
    let (negative, magnitude) := splitSign text
    (wholeDigits? magnitude).bind fun digits =>
      let number : Int := numberOf 10 digits
      inRange? (if negative then -number else number)

/-- The part before a symbol that satisfies the test and, if there is one, the part after it. -/
def splitAt (test : Char → Bool) (text : Word) : Word × Option Word :=
  match text.dropWhile fun symbol => !test symbol with
  | [] => (text, none)
  | _ :: after => (text.takeWhile fun symbol => !test symbol, some after)

def exponent? (text : Word) : Option Int :=
  let (negative, magnitude) := splitSign text
  (grouped? 10 magnitude).map fun number => if negative then -(number : Int) else number

/-- The number nearest to `coefficient * 10 ^ exponent`. -/
def nearest (coefficient : Nat) (exponent : Int) : Float :=
  if exponent < 0 then Float.ofScientific coefficient true (-exponent).toNat
  else Float.ofScientific coefficient false exponent.toNat

def special? : Word → Option Float
  | ['i', 'n', 'f'] => some (Float.ofBits 0x7FF0000000000000)
  | ['n', 'a', 'n'] => some (Float.ofBits 0x7FF8000000000000)
  | _ => none

/-- A number with a fraction, an exponent or both. -/
def magnitude? (text : Word) : Option Float := do
  let (mantissa, exponent) := splitAt (fun symbol => symbol == 'e' || symbol == 'E') text
  let (whole, fraction) := splitAt (· == '.') mantissa
  if exponent.isNone && fraction.isNone then none
  let wholeDigits ← wholeDigits? whole
  let fractionDigits ← fraction.elim (some []) (ungroup 10 false)
  let power ← exponent.elim (some 0) exponent?
  return nearest (numberOf 10 (wholeDigits ++ fractionDigits)) (power - fractionDigits.length)

/-- Too large a positive number is refused, while too large a negative one is infinite. -/
def float? (text : Word) : Option Float :=
  let (negative, unsigned) := splitSign text
  match special? unsigned, magnitude? unsigned with
  | some number, _ => some (if negative then -number else number)
  | none, some number =>
    if negative then some (-number) else if number.isInf then none else some number
  | none, none => none

/-! ## Dates and times -/

/-- A number of exactly so many digits that lies in a range. -/
def fixed? (width low high : Nat) (text : Word) : Option Nat :=
  if text.length == width && text.all Char.isDigit then
    let number := numberOf 10 text
    if low ≤ number && number ≤ high then some number else none
  else none

def isLeapYear (year : Nat) : Bool := year % 4 == 0 && (year % 100 != 0 || year % 400 == 0)

def daysOfMonth (year month : Nat) : Nat :=
  if month == 2 then (if isLeapYear year then 29 else 28)
  else if month == 4 || month == 6 || month == 9 || month == 11 then 30
  else 31

def isDate : Word → Bool
  | [y1, y2, y3, y4, '-', m1, m2, '-', d1, d2] =>
    (do
      let year ← fixed? 4 0 9999 [y1, y2, y3, y4]
      let month ← fixed? 2 1 12 [m1, m2]
      fixed? 2 1 (daysOfMonth year month) [d1, d2]).isSome
  | _ => false

def isClock (text : Word) : Bool :=
  match text with
  | [h1, h2, ':', m1, m2, ':', s1, s2] =>
    (fixed? 2 0 23 [h1, h2]).isSome && (fixed? 2 0 59 [m1, m2]).isSome &&
      (fixed? 2 0 60 [s1, s2]).isSome
  | _ => false

/-- A time of day to the second, with an optional fraction. -/
def isTime (text : Word) : Bool :=
  match splitAt (· == '.') text with
  | (clock, none) => isClock clock
  | (clock, some fraction) => isClock clock && !fraction.isEmpty && fraction.all Char.isDigit

def isOffset : Word → Bool
  | [h1, h2, ':', m1, m2] => (fixed? 2 0 23 [h1, h2]).isSome && (fixed? 2 0 59 [m1, m2]).isSome
  | _ => false

/-- A time with or without a distance from universal time. -/
def isOffsetTime (text : Word) : Bool :=
  match splitAt (fun symbol => symbol == 'Z' || symbol == 'z') text with
  | (time, some after) => isTime time && after.isEmpty
  | (_, none) =>
    match splitAt (fun symbol => symbol == '+' || symbol == '-') text with
    | (time, some offset) => isTime time && isOffset offset
    | (time, none) => isTime time

def isDatetime (text : Word) : Bool :=
  isDate text || isTime text ||
    (isDate (text.take 10) &&
      match text.drop 10 with
      | separator :: time =>
        (separator == 'T' || separator == 't' || separator == ' ') && isOffsetTime time
      | [] => false)

def read? (text : Word) : Option Value :=
  if text == "true".toList then some (.boolean true)
  else if text == "false".toList then some (.boolean false)
  else if isDatetime text then some (.datetime text)
  else
    match integer? text with
    | some number => some (.integer number)
    | none => (float? text).map .float

end Scalar

end PlantGrowth.Toml
