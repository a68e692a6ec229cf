import PlantGrowth.Proofs.Grammar.Generations
import PlantGrowth.Proofs.Grammar.Nesting
import PlantGrowth.Proofs.Plant.Tables
import PlantGrowth.Proofs.Turtle.Interruption

/-!
# Plants of balanced rules

If every rule puts a balanced word in the place of a symbol that is no bracket, and the seed never
closes more branches than it opens, then the expanded word has the same property. Its depth is
bounded by the depths of the seed and of the rules and the number of iterations, so such a plant is
never interrupted by a closing, and not at all if the settings allow that depth.
-/

namespace PlantGrowth

open Turtle

namespace Config

variable {config : Config}

theorem Valid.mem_rules_of_rule? (hvalid : config.Valid) {symbol : Char} {replacement : Word}
    (hrule : hvalid.grammar.rule? symbol = some replacement) :
    ([symbol], replacement) ∈ config.rules.entries := by
  rwa [hvalid.rule?_grammar, Table.get?_eq_some_iff] at hrule

/-- The operations of a word. -/
def opsOf (config : Config) (word : Word) : List (Op Float32) := word.map config.convention.op

/-- The largest height of a replacement. -/
def rulesPeak (config : Config) : ℤ :=
  (config.rules.entries.map fun entry ↦ peak (config.opsOf entry.2)).foldr max 0

theorem peak_le_rulesPeak {entry : Word × Word} (hentry : entry ∈ config.rules.entries) :
    peak (config.opsOf entry.2) ≤ config.rulesPeak :=
  List.le_max_of_le' 0 (List.mem_map.2 ⟨entry, hentry, rfl⟩) (le_refl _)

theorem rulesPeak_nonneg (config : Config) : 0 ≤ config.rulesPeak := by
  rw [rulesPeak]
  induction config.rules.entries with
  | nil => exact le_refl _
  | cons entry rest ih => exact le_max_of_le_right ih

/-- How deeply the branches of the expanded word can nest. -/
def nestingBound (config : Config) : ℤ :=
  peak (config.opsOf config.seed) + config.iterations.toNat * config.rulesPeak

end Config

namespace Plant

variable {config : Config} {plant : Plant}

theorem instances_of_grow (hgrow : grow config = .ok plant) :
    plant.instances =
      (config.interpreter.interpret plant.expanded plant.root).mapError .interrupted := by
  rw [(of_grow hgrow (valid_of_grow hgrow)).2]
  rfl

/-- A plant is complete if the heights of its word allow it, and an unmatched closing stands where
they become negative. -/
theorem instances_by_height (hgrow : grow config = .ok plant) :
    (Within config.maxStackDepth (config.opsOf plant.expanded) →
      ∃ placed, plant.instances = .ok placed) ∧
    ∀ failure, plant.instances = .error failure →
      ∃ position placed,
        (failure = .interrupted ⟨.unmatchedPop, position, placed⟩ ∧
          position < plant.expanded.length ∧
          height (config.opsOf plant.expanded) (position + 1) = -1) ∨
        failure = .interrupted ⟨.stackOverflow config.maxStackDepth, position, placed⟩ := by
  have hends := config.interpreter.interpret_endsByHeight plant.root plant.expanded
  have hcomplete := hends.complete_iff
  have houtcome := hends.complete_or_interrupted
  rw [List.length_map, List.take_length] at hcomplete houtcome
  rw [instances_of_grow hgrow]
  constructor
  · intro hwithin
    obtain ⟨placed, hplaced⟩ := hcomplete.2 hwithin
    exact ⟨placed, by rw [hplaced]; rfl⟩
  · intro failure hfailure
    rcases houtcome with ⟨placed, hplaced⟩ | ⟨position, placed, hfirst, -, hinterrupted⟩
    · rw [hplaced] at hfailure
      cases hfailure
    · rcases hinterrupted with ⟨hlow, herror⟩ | ⟨-, herror⟩
      · have hleave : ¬ Within config.maxStackDepth (config.opsOf plant.expanded) := by
          intro hwithin
          obtain ⟨complete, hplaced⟩ := hcomplete.2 hwithin
          rw [hplaced] at herror
          cases herror
        obtain ⟨exit, hexit, hleast⟩ := exists_first_exit hleave
        obtain rfl : position = exit := hfirst.unique hleast
        rw [herror] at hfailure
        cases hfailure
        exact ⟨position, placed, Or.inl ⟨rfl, by simpa [Config.opsOf] using hexit, hlow⟩⟩
      · rw [herror] at hfailure
        cases hfailure
        exact ⟨position, placed, Or.inr rfl⟩

/-- A plant whose rules put balanced words in the place of symbols that are no brackets, and whose
seed never closes a branch it did not open, has no unmatched closing, and its branches nest no more
deeply than the depths of the seed and the rules allow. -/
theorem balanced_rules_grow_safe_plants (config : Config) (plant : Plant)
    (hgrow : grow config = .ok plant)
    (hplain : ∀ symbol replacement, ([symbol], replacement) ∈ config.rules.entries →
      (config.convention.op symbol).Plain)
    (hbalanced : ∀ entry ∈ config.rules.entries, Balanced (config.opsOf entry.2))
    (hseed : ∀ count ≤ config.seed.length, 0 ≤ height (config.opsOf config.seed) count) :
    (∀ count ≤ plant.expanded.length,
      0 ≤ height (config.opsOf plant.expanded) count ∧
        height (config.opsOf plant.expanded) count ≤ config.nestingBound) ∧
    (∀ failure, plant.instances = .error failure →
      ∃ position placed,
        failure = .interrupted ⟨.stackOverflow config.maxStackDepth, position, placed⟩) ∧
    (config.nestingBound ≤ config.maxStackDepth → ∃ placed, plant.instances = .ok placed) := by
  have hvalid := valid_of_grow hgrow
  have hnests : hvalid.grammar.Nests config.convention.op config.rulesPeak := by
    refine ⟨config.rulesPeak_nonneg, ?_, ?_, ?_⟩
    · intro symbol replacement hrule
      exact hplain symbol replacement (hvalid.mem_rules_of_rule? hrule)
    · intro symbol replacement hrule
      exact hbalanced _ (hvalid.mem_rules_of_rule? hrule)
    · intro symbol replacement hrule count hcount
      exact (height_le_peak (by simpa using hcount)).trans
        (Config.peak_le_rulesPeak (hvalid.mem_rules_of_rule? hrule))
  have hheights : ∀ count ≤ plant.expanded.length,
      0 ≤ height (config.opsOf plant.expanded) count ∧
        height (config.opsOf plant.expanded) count ≤ config.nestingBound := by
    intro count hcount
    rw [← hvalid.seed_grammar] at hseed
    rw [Expander.eq_generation_of_expand (of_grow hgrow hvalid).1] at hcount ⊢
    have hrange := hnests.height_generation hseed config.iterations.toNat hcount
    rw [hvalid.seed_grammar] at hrange
    exact hrange
  obtain ⟨hcomplete, hinterrupted⟩ := instances_by_height hgrow
  refine ⟨hheights, ?_, ?_⟩
  · intro failure hfailure
    obtain ⟨position, placed, ⟨-, hposition, hlow⟩ | hoverflow⟩ := hinterrupted failure hfailure
    · have hnonneg := (hheights (position + 1) hposition).1
      omega
    · exact ⟨position, placed, hoverflow⟩
  · intro hroom
    apply hcomplete
    intro count hcount
    obtain ⟨hlow, hhigh⟩ := hheights count (by simpa [Config.opsOf] using hcount)
    exact ⟨hlow, hhigh.trans hroom⟩

theorem balanced_rules_grow_safe_plants_shoot :
    { Config.shoot with iterations := 2 }.nestingBound = 2 ∧
      ∃ plant, grow { Config.shoot with iterations := 2 } = .ok plant ∧
        ∃ placed, plant.instances = .ok placed := by
  have hbound : { Config.shoot with iterations := 2 }.nestingBound = 2 := by decide
  have hplain : ∀ symbol replacement, ([symbol], replacement) ∈ Config.shoot.rules.entries →
      (Config.shoot.convention.op symbol).Plain := by
    intro symbol replacement hentry
    have honly : ([symbol], replacement) ∈ [(['A'], "F[+A]A".toList)] := hentry
    obtain rfl : symbol = 'A' := by simpa using congrArg Prod.fst (List.mem_singleton.1 honly)
    decide
  obtain ⟨-, -, hcomplete⟩ := balanced_rules_grow_safe_plants
    { Config.shoot with iterations := 2 } _ rfl hplain (by decide) (by decide)
  exact ⟨hbound, _, rfl, hcomplete (by rw [hbound]; decide)⟩

end Plant

end PlantGrowth
