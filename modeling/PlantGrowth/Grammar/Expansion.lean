import PlantGrowth.Grammar.Basic

/-!
# Expansion

A grammar is expanded by a requested number of passes over its seed. An expander may carry a
cap: no generation longer than the cap is built, the seed included, and the first one that would be
longer stops the expansion with a report of the passes completed before it. The length of a
generation is found ahead of it from the lengths of the replacements, which are listed once.

Lengths count symbols and have no upper bound. The size of a generation in bytes, sums that leave the
range of a machine word and memory that cannot be reserved for a generation are left out; each of
them could only stop an expansion whose generations exceed what a machine holds.
-/

namespace PlantGrowth

namespace Grammar

/-- The lengths of all replacements. -/
def lengths (grammar : Grammar) : Table Char Nat := grammar.rules.mapValues List.length

/-- The length of a word after one pass; a symbol without a listed length stands for itself. -/
def derivedLength (lengths : Table Char Nat) (word : Word) : Nat :=
  word.foldl (fun total symbol => total + (lengths.get? symbol).getD 1) 0

/-- Adds what a symbol becomes in one pass. -/
def extend (grammar : Grammar) (built : Array Char) (symbol : Char) : Array Char :=
  match grammar.rule? symbol with
  | some replacement => built ++ replacement
  | none => built.push symbol

/-- Builds the word after one pass, symbol by symbol. -/
def rewrite (grammar : Grammar) (word : Word) : Word := (word.foldl grammar.extend #[]).toList

end Grammar

/-- The report of an expansion that met its cap. -/
structure ExpansionLimit where
  completed : Nat
  requested : Nat
  limit : Nat
  deriving DecidableEq, Repr

structure Expander where
  cap : Option Nat
  deriving DecidableEq, Repr

namespace Expander

def uncapped : Expander := ⟨none⟩

/-- Lets a generation of the given length pass. -/
def allow (expander : Expander) (requested completed length : Nat) :
    Except ExpansionLimit Unit :=
  match expander.cap with
  | none => .ok ()
  | some limit => if length ≤ limit then .ok () else .error ⟨completed, requested, limit⟩

/-- Makes the remaining passes over the current word and adds it to the generations at the end.
The words that the passes leave behind are added as well if all are to be kept. -/
def advance (expander : Expander) (grammar : Grammar) (lengths : Table Char Nat)
    (requested : Nat) (keepAll : Bool) :
    Nat → Nat → Word → Array Word → Except ExpansionLimit (Array Word)
  | 0, _, current, generations => .ok (generations.push current)
  | remaining + 1, completed, current, generations =>
    match expander.allow requested completed (Grammar.derivedLength lengths current) with
    | .error report => .error report
    | .ok () =>
      expander.advance grammar lengths requested keepAll remaining (completed + 1)
        (grammar.rewrite current) (if keepAll then generations.push current else generations)

def run (expander : Expander) (grammar : Grammar) (passes : Nat) (keepAll : Bool) :
    Except ExpansionLimit (Array Word) :=
  match expander.allow passes 0 grammar.seed.length with
  | .error report => .error report
  | .ok () => expander.advance grammar grammar.lengths passes keepAll passes 0 grammar.seed #[]

/-- The last requested generation. -/
def expand (expander : Expander) (grammar : Grammar) (passes : Nat) :
    Except ExpansionLimit Word :=
  (expander.run grammar passes false).map fun generations => generations.back?.getD []

/-- Every generation from the seed to the last requested one. -/
def expandEach (expander : Expander) (grammar : Grammar) (passes : Nat) :
    Except ExpansionLimit (List Word) :=
  (expander.run grammar passes true).map Array.toList

end Expander

end PlantGrowth
