import PlantGrowth.Word

/-!
# Grammars

A grammar has a seed word, which is never empty, and at most one replacement per symbol. A symbol
without a rule stands for itself. A pass replaces all symbols of a word at once.

A rule is written as its symbol, an arrow and its replacement, with any white space around them:
`A -> F[A]A`. The first arrow of the text separates the two sides, and an empty replacement erases
its symbol.
-/

namespace PlantGrowth

structure Grammar where
  seed : Word
  rules : Table Char Word
  seed_ne_nil : seed ≠ []

namespace Grammar

/-- The grammar without rules, if the seed has a symbol. -/
def ofSeed? (seed : Word) : Option Grammar :=
  if nonempty : seed ≠ [] then some ⟨seed, Table.empty, nonempty⟩ else none

def rule? (grammar : Grammar) (symbol : Char) : Option Word := grammar.rules.get? symbol

/-- Sets the replacement of a symbol, discarding an earlier one. -/
def setRule (grammar : Grammar) (symbol : Char) (replacement : Word) : Grammar :=
  { grammar with rules := grammar.rules.insert symbol replacement }

def setRules (grammar : Grammar) (rules : List (Char × Word)) : Grammar :=
  rules.foldl (fun current rule => current.setRule rule.1 rule.2) grammar

def ruleCount (grammar : Grammar) : Nat := grammar.rules.size

/-- What a symbol becomes in one pass. -/
def successor (grammar : Grammar) (symbol : Char) : Word := (grammar.rule? symbol).getD [symbol]

/-- The word after one pass. -/
def derive (grammar : Grammar) (word : Word) : Word := word.flatMap grammar.successor

/-- The word after a number of passes from the seed. -/
def generation (grammar : Grammar) : Nat → Word
  | 0 => grammar.seed
  | passes + 1 => grammar.derive (grammar.generation passes)

@[simp]
theorem derive_nil (grammar : Grammar) : grammar.derive [] = [] := rfl

@[simp]
theorem derive_cons (grammar : Grammar) (symbol : Char) (rest : Word) :
    grammar.derive (symbol :: rest) = grammar.successor symbol ++ grammar.derive rest := rfl

theorem derive_append (grammar : Grammar) (first second : Word) :
    grammar.derive (first ++ second) = grammar.derive first ++ grammar.derive second := by
  simp [derive]

end Grammar

/-! ## Written rules -/

structure Rule where
  symbol : Char
  replacement : Word
  deriving DecidableEq, Repr

inductive RuleFault
  | missingArrow
  | predecessorNotSingle
  deriving DecidableEq, Repr

/-- A text that is no rule, kept as it was given. -/
structure MalformedRule where
  text : Word
  fault : RuleFault
  deriving DecidableEq, Repr

def RuleFault.reason : RuleFault → String
  | .missingArrow => "missing `->`"
  | .predecessorNotSingle => "predecessor must be exactly one symbol"

namespace Rule

/-- The texts before and after the first arrow. -/
def splitArrow : Word → Option (Word × Word)
  | '-' :: '>' :: rest => some ([], rest)
  | symbol :: rest => (splitArrow rest).map fun sides => (symbol :: sides.1, sides.2)
  | [] => none

def parse (text : Word) : Except MalformedRule Rule :=
  match splitArrow text with
  | none => .error ⟨text, .missingArrow⟩
  | some (left, right) =>
    match (Text.trim left).single? with
    | none => .error ⟨text, .predecessorNotSingle⟩
    | some symbol => .ok ⟨symbol, Text.trim right⟩

end Rule

/-- Sets the rule that a text states; a malformed text leaves the grammar as it is. -/
def Grammar.setWrittenRule (grammar : Grammar) (text : Word) : Except MalformedRule Grammar :=
  (Rule.parse text).map fun rule => grammar.setRule rule.symbol rule.replacement

end PlantGrowth
