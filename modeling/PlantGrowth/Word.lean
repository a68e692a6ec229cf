import PlantGrowth.Table

/-!
# Symbols and words

A symbol is one Unicode scalar value and a word is a sequence of symbols, so lengths and positions
count symbols. Symbols are ordered by code point and words lexicographically. The blank symbols are
the twenty-five code points with the Unicode property `White_Space`; runs of them can be removed from
the two ends of a word.
-/

namespace PlantGrowth

abbrev Word := List Char

namespace Symbol

def before (first second : Char) : Bool := decide (first.toNat < second.toNat)

theorem before_irrefl (symbol : Char) : before symbol symbol = false := by
  simp [before]

theorem before_trans {first second third : Char} (ahead : before first second = true)
    (behind : before second third = true) : before first third = true := by
  simp only [before, decide_eq_true_eq] at *
  omega

theorem eq_of_not_before {first second : Char} (notBefore : before first second = false)
    (notAfter : before second first = false) : first = second := by
  simp only [before, decide_eq_false_iff_not] at *
  have same : first.toNat = second.toNat := by omega
  exact Char.ext (UInt32.toNat.inj same)

end Symbol

instance : Key Char where
  before := Symbol.before
  before_irrefl := Symbol.before_irrefl
  before_trans := Symbol.before_trans
  eq_of_not_before := Symbol.eq_of_not_before

namespace Word

/-- The only symbol of a word of length one. -/
def single? : Word → Option Char
  | [symbol] => some symbol
  | _ => none

def before : Word → Word → Bool
  | _, [] => false
  | [], _ :: _ => true
  | first :: rest, second :: others =>
    if Symbol.before first second then true
    else if Symbol.before second first then false
    else before rest others

theorem single?_eq_some_iff {word : Word} {symbol : Char} :
    word.single? = some symbol ↔ word = [symbol] := by
  unfold single?
  split
  · simp [eq_comm]
  · rename_i other
    simp only [reduceCtorEq, false_iff]
    exact other symbol

theorem before_irrefl (word : Word) : before word word = false := by
  induction word with
  | nil => rfl
  | cons symbol rest ih => simp [before, Symbol.before_irrefl, ih]

theorem before_trans {first second third : Word} (ahead : before first second = true)
    (behind : before second third = true) : before first third = true := by
  induction first generalizing second third with
  | nil =>
    cases third with
    | nil => cases second <;> simp [before] at behind
    | cons => rfl
  | cons symbol rest ih =>
    cases second with
    | nil => simp [before] at ahead
    | cons middle others =>
      cases third with
      | nil => simp [before] at behind
      | cons last tail =>
        simp only [before, Symbol.before, decide_eq_true_eq] at *
        grind

theorem eq_of_not_before {first second : Word} (notBefore : before first second = false)
    (notAfter : before second first = false) : first = second := by
  induction first generalizing second with
  | nil =>
    cases second with
    | nil => rfl
    | cons => simp [before] at notBefore
  | cons symbol rest ih =>
    cases second with
    | nil => simp [before] at notAfter
    | cons other others =>
      unfold before at notBefore notAfter
      cases ahead : Symbol.before symbol other <;>
        cases behind : Symbol.before other symbol <;> simp_all
      exact ⟨Symbol.eq_of_not_before ahead behind, ih notBefore notAfter⟩

end Word

instance : Key Word where
  before := Word.before
  before_irrefl := Word.before_irrefl
  before_trans := Word.before_trans
  eq_of_not_before := Word.eq_of_not_before

/-! ## White space -/

namespace Text

/-- First and last code point of each run of white space. -/
def blankRanges : List (Nat × Nat) :=
  [(0x0009, 0x000D), (0x0020, 0x0020), (0x0085, 0x0085), (0x00A0, 0x00A0), (0x1680, 0x1680),
   (0x2000, 0x200A), (0x2028, 0x2029), (0x202F, 0x202F), (0x205F, 0x205F), (0x3000, 0x3000)]

def isBlank (symbol : Char) : Bool :=
  blankRanges.any fun range => range.1 ≤ symbol.toNat && symbol.toNat ≤ range.2

def trimLeft (word : Word) : Word := word.dropWhile isBlank

def trimRight (word : Word) : Word := (word.reverse.dropWhile isBlank).reverse

def trim (word : Word) : Word := trimRight (trimLeft word)

end Text

end PlantGrowth
