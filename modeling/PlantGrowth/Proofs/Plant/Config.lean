import PlantGrowth.Plant.Basic

/-!
# Valid configurations

Validation accepts exactly the configurations all of whose settings are in range. A plant grows from
a valid configuration unless its expansion meets the cap, and nothing that it grows into depends on
the spread, apart from the configuration itself and the interpreter.
-/

namespace PlantGrowth

open Turtle

namespace Config

/-- Every setting is one that a plant can be grown from. -/
structure Valid (config : Config) : Prop where
  seed : config.seed ≠ []
  keys : ∀ key ∈ config.keys, ∃ symbol, key = [symbol]
  spread : config.spread.isFinite = true
  stepLength : config.stepLength.isFinite = true ∧ 0 < config.stepLength
  shrinkFactor : 0 < config.shrinkFactor ∧ config.shrinkFactor ≤ 1
  origin : config.origin.all Float32.isFinite = true

variable {config : Config}

theorem find?_keys_eq_none_iff :
    (config.keys.find? fun key ↦ key.single?.isNone) = none ↔
      ∀ key ∈ config.keys, ∃ symbol, key = [symbol] := by
  simp [List.find?_eq_none, ← Option.isSome_iff_ne_none, Option.isSome_iff_exists,
    Word.single?_eq_some_iff]

theorem settingFault?_eq_none_iff :
    config.settingFault? = none ↔
      (∀ key ∈ config.keys, ∃ symbol, key = [symbol]) ∧ config.spread.isFinite = true ∧
        (config.stepLength.isFinite = true ∧ 0 < config.stepLength) ∧
        (0 < config.shrinkFactor ∧ config.shrinkFactor ≤ 1) ∧
        config.origin.all Float32.isFinite = true := by
  rw [settingFault?, ← find?_keys_eq_none_iff]
  split
  · simp [*]
  · simp [*]
    grind

theorem validate_eq_ok_iff : config.validate = .ok () ↔ config.Valid := by
  have hparts : config.Valid ↔ config.seed ≠ [] ∧ config.settingFault? = none := by
    rw [settingFault?_eq_none_iff]
    constructor
    · intro hvalid
      exact ⟨hvalid.seed, hvalid.keys, hvalid.spread, hvalid.stepLength, hvalid.shrinkFactor,
        hvalid.origin⟩
    · intro hparts
      obtain ⟨hseed, hkeys, hspread, hstep, hshrink, horigin⟩ := hparts
      exact ⟨hseed, hkeys, hspread, hstep, hshrink, horigin⟩
  rw [hparts, validate]
  cases hseed : config.seed with
  | nil => simp
  | cons symbol rest => cases config.settingFault? <;> simp

theorem Valid.withSpread {spread : Float32} (hvalid : config.Valid) (hfinite : spread.isFinite = true) :
    { config with spread }.Valid :=
  ⟨hvalid.seed, hvalid.keys, hfinite, hvalid.stepLength, hvalid.shrinkFactor, hvalid.origin⟩

theorem Valid.withIterations (hvalid : config.Valid) (iterations : UInt32) :
    { config with iterations }.Valid :=
  ⟨hvalid.seed, hvalid.keys, hvalid.spread, hvalid.stepLength, hvalid.shrinkFactor, hvalid.origin⟩

/-- A spread that is not finite is all that validation finds in an otherwise valid configuration. -/
theorem Valid.validate_spread_of_not_finite {spread : Float32} (hvalid : config.Valid)
    (hinfinite : spread.isFinite = false) :
    { config with spread }.validate = .error (.invalidSetting (.spreadNotFinite spread)) := by
  have hkeys : ({ config with spread }.keys.find? fun key : Word ↦ key.single?.isNone) = none :=
    find?_keys_eq_none_iff.2 hvalid.keys
  have hfault : { config with spread }.settingFault? = some (.spreadNotFinite spread) := by
    rw [settingFault?, hkeys]
    simp [hinfinite]
  simp [validate, hvalid.seed, hfault]

/-! ## Grammars and plants -/

/-- The grammar of the seed and the rules. -/
def Valid.grammar (hvalid : config.Valid) : Grammar :=
  (⟨config.seed, Table.empty, hvalid.seed⟩ : Grammar).setRules (symbolEntries config.rules)

theorem grammar_of_valid (hvalid : config.Valid) : config.grammar = .ok hvalid.grammar := by
  rw [Config.grammar, validate_eq_ok_iff.2 hvalid]
  simp [bind, Except.bind, Grammar.ofSeed?, hvalid.seed, Valid.grammar]

theorem grammar_of_validate_error {failure : Failure} (hinvalid : config.validate = .error failure) :
    config.grammar = .error failure := by
  rw [Config.grammar, hinvalid]
  rfl

/-- One shoot that branches out, with room for twenty symbols. -/
def shoot : Config :=
  { sample.setRule 'A' "F[+A]A".toList with seed := ['A'], maxSymbols := some 20 }

end Config

namespace Plant

open Config

variable {config : Config} {plant : Plant}

theorem grow_of_valid (hvalid : config.Valid) :
    grow config =
      match config.expander.expand hvalid.grammar config.iterations.toNat with
      | .error report => .error (.expansionLimit report)
      | .ok expanded => .ok ⟨config, hvalid.grammar, config.interpreter, expanded⟩ := by
  rw [grow, grammar_of_valid hvalid]
  simp only [bind, Except.bind]
  cases config.expander.expand hvalid.grammar config.iterations.toNat <;> rfl

theorem grow_of_validate_error {failure : Failure} (hinvalid : config.validate = .error failure) :
    grow config = .error failure := by
  rw [grow, grammar_of_validate_error hinvalid]
  rfl

theorem valid_of_grow (hgrow : grow config = .ok plant) : config.Valid := by
  rw [← validate_eq_ok_iff]
  cases hvalidate : config.validate with
  | ok => rfl
  | error failure =>
    rw [grow_of_validate_error hvalidate] at hgrow
    cases hgrow

/-- A plant that is grown is made of its configuration and the expansion of its grammar. -/
theorem of_grow (hgrow : grow config = .ok plant) (hvalid : config.Valid) :
    config.expander.expand hvalid.grammar config.iterations.toNat = .ok plant.expanded ∧
      plant = ⟨config, hvalid.grammar, config.interpreter, plant.expanded⟩ := by
  rw [grow_of_valid hvalid] at hgrow
  split at hgrow
  · cases hgrow
  · rename_i expanded hexpand
    cases hgrow
    exact ⟨hexpand, rfl⟩

end Plant

end PlantGrowth
