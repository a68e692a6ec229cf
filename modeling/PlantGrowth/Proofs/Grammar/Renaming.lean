import Mathlib.Logic.Equiv.Defs
import PlantGrowth.Proofs.Grammar.Generations
import PlantGrowth.Proofs.Table
import PlantGrowth.Turtle.Interpreter

/-!
# Symbols as names

Symbols are ordered, and tables list their entries in that order, but nothing that is made of a word
depends on it. When the symbols of a grammar are exchanged for others, its expansions are the renamed
ones, with the same reports. When the symbols of a convention are exchanged, renamed words are
interpreted as the words were before.
-/

namespace PlantGrowth

variable {exchange : Equiv.Perm Char}

/-! ## Grammars -/

namespace Grammar

/-- The second grammar is the first one under other names. -/
structure Renamed (exchange : Equiv.Perm Char) (grammar renamed : Grammar) : Prop where
  seed : renamed.seed = grammar.seed.map exchange
  rule? : ∀ symbol, renamed.rule? (exchange symbol) =
    (grammar.rule? symbol).map (List.map exchange)

variable {grammar renamed : Grammar}

theorem Renamed.successor (hrenamed : grammar.Renamed exchange renamed) (symbol : Char) :
    renamed.successor (exchange symbol) = (grammar.successor symbol).map exchange := by
  unfold Grammar.successor
  rw [hrenamed.rule?]
  cases grammar.rule? symbol <;> rfl

theorem Renamed.derive (hrenamed : grammar.Renamed exchange renamed) (word : Word) :
    renamed.derive (word.map exchange) = (grammar.derive word).map exchange := by
  unfold Grammar.derive
  rw [List.flatMap_map, List.map_flatMap]
  apply congrArg (word.flatMap ·)
  funext symbol
  exact hrenamed.successor symbol

theorem Renamed.generation (hrenamed : grammar.Renamed exchange renamed) (passes : ℕ) :
    renamed.generation passes = (grammar.generation passes).map exchange := by
  induction passes with
  | zero => exact hrenamed.seed
  | succ passes ih => rw [Grammar.generation, Grammar.generation, ih, hrenamed.derive]

/-- Renamed grammars expand to renamed words, and meet the cap in the same passes. -/
theorem Renamed.expansions (hrenamed : grammar.Renamed exchange renamed) (expander : Expander)
    (passes : ℕ) :
    expander.expandEach renamed passes =
        (expander.expandEach grammar passes).map (List.map (List.map exchange)) ∧
      expander.expand renamed passes = (expander.expand grammar passes).map (List.map exchange) := by
  -- A cap counts symbols, so it cannot tell the generations apart.
  have hlength (k : ℕ) : (renamed.generation k).length = (grammar.generation k).length := by
    rw [hrenamed.generation, List.length_map]
  have hview (k : ℕ) : id (renamed.generation k) = (grammar.generation k).map exchange :=
    hrenamed.generation k
  have hcorrespond := Expander.expansions_correspond hlength hview expander passes
  simpa [Except.map_id] using hcorrespond

/-- The grammar with its rules entered under other names. -/
def rename (exchange : Equiv.Perm Char) (grammar : Grammar) : Grammar where
  seed := grammar.seed.map exchange
  rules := grammar.rules.rekey exchange (List.map exchange)
  seed_ne_nil := by simpa using grammar.seed_ne_nil

theorem renamed_rename (exchange : Equiv.Perm Char) (grammar : Grammar) :
    grammar.Renamed exchange (grammar.rename exchange) :=
  ⟨rfl, Table.get?_rekey exchange.injective _ grammar.rules⟩

end Grammar

/-! ## Conventions -/

namespace Turtle

variable {α : Type}

/-- The convention with its operations under other symbols. -/
def Convention.rename (exchange : Equiv.Perm Char) (convention : Convention α) : Convention α where
  ops := convention.ops.rekey exchange id
  effective := by
    intro entry hentry
    obtain ⟨held, hheld, rfl⟩ := (Table.mem_rekey_iff exchange.injective).1 hentry
    exact convention.effective held hheld

theorem Convention.op_rename (exchange : Equiv.Perm Char) (convention : Convention α)
    (symbol : Char) : (convention.rename exchange).op (exchange symbol) = convention.op symbol := by
  unfold op
  rw [rename, Table.get?_rekey exchange.injective, Option.map_id, id]

theorem Interpreter.instructions_rename {interpreter renamed : Interpreter α}
    (hop : ∀ symbol, renamed.convention.op (exchange symbol) = interpreter.convention.op symbol)
    (word : Word) : renamed.instructions (word.map exchange) = interpreter.instructions word := by
  unfold instructions
  rw [List.map_map]
  apply List.map_congr_left
  intro symbol _
  rw [Function.comp_apply, hop]

end Turtle

open Turtle

end PlantGrowth
