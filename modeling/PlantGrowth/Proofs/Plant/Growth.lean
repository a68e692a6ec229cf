import PlantGrowth.Proofs.Grammar.Yield
import PlantGrowth.Proofs.Plant.Nesting
import PlantGrowth.Proofs.Scene.Batch
import PlantGrowth.Proofs.Turtle.Walk
import PlantGrowth.Turtle.Interpreter

/-!
# Growth in numbers

One operation places branches and one places ornaments, one mesh each time wherever the turtle is.
So a walk that is not interrupted has placed each mesh as often as its operation stands in the
instructions, and nothing else. How large a plant grows, and how many branches and ornaments it has,
can therefore be told symbol by symbol from the seed, without growing it.
-/

namespace PlantGrowth

open Scene

namespace Turtle

/-! ## How many meshes a walk places -/

variable {α : Type}

/-- The operation that places a mesh. -/
def placing : Mesh → Op α
  | .branch => .draw
  | .ornament => .ornament

variable [DecidableEq α] [Mul α] [Elementary α]

theorem count_emit? (mesh : Mesh) (state : State α) (instruction : Instruction α) :
    count mesh (state.emit? instruction).toList =
      if instruction.op = placing mesh then 1 else 0 := by
  rcases instruction with ⟨op, argument⟩
  cases op <;> cases mesh <;> rfl

variable [Add α] [Sub α] [Div α] [Neg α] [OfNat α 0] [OfNat α 1] [OfNat α 2]
  {settings : Settings α}

theorem Walk.count_of_follow {position : ℕ} {walk last : Walk α}
    {instructions : List (Instruction α)}
    (hfollow : follow settings position walk instructions = .ok last) (mesh : Mesh) :
    count mesh last.placed.toList = count mesh walk.placed.toList +
      (instructions.map fun instruction ↦
        if instruction.op = placing mesh then 1 else 0).sum := by
  induction instructions generalizing position walk with
  | nil =>
    cases hfollow
    rfl
  | cons instruction rest ih =>
    obtain ⟨next, hstep, hrest⟩ := follow_cons_eq_ok hfollow
    rw [ih hrest, placed_of_step hstep, count_append, count_emit?, List.map_cons, List.sum_cons,
      Nat.add_assoc]

/-- A word that is interpreted to its end has each mesh once for each symbol that places it. -/
theorem Interpreter.count_of_interpret {interpreter : Interpreter α} {word : Word}
    {root : State α} {placed : List (Placement α)}
    (hplaced : interpreter.interpret word root = .ok placed) (mesh : Mesh) :
    count mesh placed =
      (word.map fun symbol ↦ if interpreter.convention.op symbol = placing mesh then 1 else 0).sum := by
  obtain ⟨last, hfollow, rfl⟩ := Walk.placements_eq_ok_iff.1 hplaced
  rw [Walk.count_of_follow hfollow, instructions, List.map_map]
  exact Nat.zero_add _

end Turtle

/-! ## What the seed yields -/

open Turtle

/-- The weight of the expanded word, summed over the symbols of the seed. -/
def Config.yield (config : Config) (weight : Char → ℕ) : ℕ :=
  (config.seed.map
    (yieldOf (fun symbol ↦ config.rules.get? [symbol]) weight config.iterations.toNat)).sum

namespace Plant

variable {config : Config} {plant : Plant}

theorem weight_of_grow (hgrow : grow config = .ok plant) (weight : Char → ℕ) :
    (plant.expanded.map weight).sum = config.yield weight := by
  have hvalid := valid_of_grow hgrow
  have hrule : hvalid.grammar.rule? = fun symbol ↦ config.rules.get? [symbol] := by
    funext symbol
    exact hvalid.rule?_grammar symbol
  rw [Expander.eq_generation_of_expand (of_grow hgrow hvalid).1, Grammar.weight_generation,
    hvalid.seed_grammar, hrule, Config.yield]

theorem interpret_of_instances (hgrow : grow config = .ok plant)
    {placed : List (Placement Float32)} (hplaced : plant.instances = .ok placed) :
    config.interpreter.interpret plant.expanded plant.root = .ok placed := by
  rw [instances_of_grow hgrow] at hplaced
  cases hrun : config.interpreter.interpret plant.expanded plant.root with
  | error interruption =>
    rw [hrun] at hplaced
    cases hplaced
  | ok all =>
    rw [hrun] at hplaced
    cases hplaced
    rfl

/-- Whatever its symbols weigh, the expanded word weighs what the symbols of the seed yield, each
found by itself. So its length is known, and the number of branches and ornaments of a plant that is
not interrupted. The order of the seed has no part in it: grammars with the same rules and the same
symbols in their seeds have generations of the same lengths and meet a cap in the same pass. -/
theorem growth_is_linear :
    (∀ (config : Config) (plant : Plant), grow config = .ok plant →
      (∀ weight : Char → ℕ, (plant.expanded.map weight).sum = config.yield weight) ∧
      plant.expanded.length = config.yield (fun _ ↦ 1) ∧
      ∀ placed, plant.instances = .ok placed →
        (∀ mesh, count mesh placed =
          config.yield fun symbol ↦ if config.convention.op symbol = placing mesh then 1 else 0) ∧
        placed.length = count .branch placed + count .ornament placed) ∧
    ∀ grammar other : Grammar, other.rules = grammar.rules → other.seed.Perm grammar.seed →
      (∀ passes, (other.generation passes).length = (grammar.generation passes).length) ∧
      ∀ (expander : Expander) (passes : ℕ),
        (expander.expandEach other passes).map (List.map List.length) =
          (expander.expandEach grammar passes).map (List.map List.length) ∧
        (expander.expand other passes).map List.length =
          (expander.expand grammar passes).map List.length := by
  constructor
  · intro config plant hgrow
    refine ⟨weight_of_grow hgrow, ?_, ?_⟩
    · rw [← weight_of_grow hgrow]
      simp
    · intro placed hplaced
      refine ⟨?_, length_eq_count_add_count placed⟩
      intro mesh
      rw [Interpreter.count_of_interpret (interpret_of_instances hgrow hplaced),
        weight_of_grow hgrow]
      rfl
  · intro grammar other hrules hseed
    exact ⟨Grammar.length_generation_of_perm hrules hseed,
      Grammar.expansions_of_perm hrules hseed⟩

/-- Two generations of a shoot, and a capped expansion from either order of a seed. -/
theorem growth_is_linear_shoot :
    (∃ plant placed, grow { Config.shoot with iterations := 2 } = .ok plant ∧
      plant.instances = .ok placed ∧ plant.expanded.length = 16 ∧
      count .branch placed = 3 ∧ count .ornament placed = 4 ∧ placed.length = 7) ∧
    ((⟨some 4⟩ : Expander).expand
        ⟨['B', 'A'], Table.ofList [('A', ['A', 'B'])], by decide⟩ 3).map List.length =
      .error ⟨2, 3, 4⟩ := by
  obtain ⟨hgrown, hreordered⟩ := growth_is_linear
  constructor
  · have hgrow : grow { Config.shoot with iterations := 2 } = .ok _ := rfl
    obtain ⟨-, hlength, hcounts⟩ := hgrown _ _ hgrow
    have hwithin : Within 1024 (Config.shoot.opsOf "F[+F[+A]A]F[+A]A".toList) := by decide
    obtain ⟨placed, hplaced⟩ := (instances_by_height hgrow).1 hwithin
    obtain ⟨hcount, htotal⟩ := hcounts placed hplaced
    have hbranches : count .branch placed = 3 := hcount .branch
    have hornaments : count .ornament placed = 4 := hcount .ornament
    exact ⟨_, placed, hgrow, hplaced, hlength, hbranches, hornaments,
      by rw [htotal, hbranches, hornaments]⟩
  · have hseed : ['B', 'A'].Perm ['A', 'B'] := by decide
    obtain ⟨-, hexpansions⟩ := hreordered
      ⟨['A', 'B'], Table.ofList [('A', ['A', 'B'])], by decide⟩ ⟨['B', 'A'], _, by decide⟩ rfl hseed
    rw [(hexpansions _ _).2]
    rfl

end Plant

end PlantGrowth
