import Mathlib
import PlantGrowth.Proofs.Grammar.Generations

/-!
# Yields of single symbols

What a symbol contributes to a later generation does not depend on the symbols around it. So the
weight of a generation, whatever its symbols weigh, is the sum of the yields of the seed, each found
by recursion on single symbols without building a word. Only which symbols the seed has counts, and
not their order.
-/

namespace PlantGrowth

/-- The weight of what a symbol has become after a number of passes. -/
def yieldOf (rule? : Char → Option Word) (weight : Char → ℕ) : ℕ → Char → ℕ
  | 0, symbol => weight symbol
  | passes + 1, symbol =>
    match rule? symbol with
    | some replacement => (replacement.map (yieldOf rule? weight passes)).sum
    | none => yieldOf rule? weight passes symbol

namespace Grammar

variable (grammar : Grammar) (weight : Char → ℕ)

theorem yieldOf_succ (passes : ℕ) (symbol : Char) :
    yieldOf grammar.rule? weight (passes + 1) symbol =
      ((grammar.successor symbol).map (yieldOf grammar.rule? weight passes)).sum := by
  rw [yieldOf, successor]
  cases grammar.rule? symbol <;> simp

theorem sum_map_derive (word : Word) :
    ((grammar.derive word).map weight).sum =
      (word.map fun symbol ↦ ((grammar.successor symbol).map weight).sum).sum := by
  induction word with
  | nil => rfl
  | cons symbol rest ih =>
    rw [derive_cons, List.map_append, List.sum_append, ih, List.map_cons, List.sum_cons]

/-- Passes over a word from its seed and passes over each symbol from the end come to the same. -/
theorem sum_map_generation (passes : ℕ) (base : ℕ) :
    ((grammar.generation passes).map (yieldOf grammar.rule? weight base)).sum =
      (grammar.seed.map (yieldOf grammar.rule? weight (passes + base))).sum := by
  -- Each step takes the last pass away from the word and leaves it to the yields.
  induction passes generalizing base with
  | zero => rw [generation, Nat.zero_add]
  | succ passes ih =>
    have hsymbol : (fun symbol ↦
        ((grammar.successor symbol).map (yieldOf grammar.rule? weight base)).sum) =
          yieldOf grammar.rule? weight (base + 1) := by
      funext symbol
      rw [yieldOf_succ]
    calc
      _ = ((grammar.generation passes).map (yieldOf grammar.rule? weight (base + 1))).sum := by
        rw [generation, sum_map_derive, hsymbol]
      _ = (grammar.seed.map (yieldOf grammar.rule? weight (passes + (base + 1)))).sum := ih _
      _ = _ := by rw [Nat.add_right_comm, Nat.add_assoc]

theorem weight_generation (passes : ℕ) :
    ((grammar.generation passes).map weight).sum =
      (grammar.seed.map (yieldOf grammar.rule? weight passes)).sum :=
  grammar.sum_map_generation weight passes 0

theorem length_generation (passes : ℕ) :
    (grammar.generation passes).length =
      (grammar.seed.map (yieldOf grammar.rule? (fun _ ↦ 1) passes)).sum := by
  rw [← weight_generation]
  simp

variable {grammar}

/-- Reordering the seed changes the length of no generation. -/
theorem length_generation_of_perm {other : Grammar} (hrules : other.rules = grammar.rules)
    (hseed : other.seed.Perm grammar.seed) (passes : ℕ) :
    (other.generation passes).length = (grammar.generation passes).length := by
  have hrule : other.rule? = grammar.rule? := by
    funext symbol
    rw [rule?, rule?, hrules]
  rw [length_generation, length_generation, hrule]
  exact (hseed.map _).sum_nat

/-- Nor does it change in which pass the cap is met. -/
theorem expansions_of_perm {other : Grammar} (hrules : other.rules = grammar.rules)
    (hseed : other.seed.Perm grammar.seed) (expander : Expander) (passes : ℕ) :
    (expander.expandEach other passes).map (List.map List.length) =
        (expander.expandEach grammar passes).map (List.map List.length) ∧
      (expander.expand other passes).map List.length =
        (expander.expand grammar passes).map List.length := by
  have hlength := length_generation_of_perm hrules hseed
  exact Expander.expansions_correspond hlength hlength expander passes

end Grammar

end PlantGrowth
