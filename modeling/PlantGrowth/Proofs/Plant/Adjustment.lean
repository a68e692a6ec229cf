import PlantGrowth.Proofs.Plant.Config

/-!
# Adjusted plants

A grown plant can be adjusted to another spread or another number of iterations, and keeps what the
change does not touch. However long the history of adjustments, the plant is the one that its own
configuration grows, and no adjustment succeeds or fails because of the ones before it.
-/

namespace PlantGrowth

/-! ## Adjustments -/

/-- A change of one setting of a grown plant. -/
inductive Adjustment
  | spread (degrees : Float32)
  | iterations (passes : UInt32)
  deriving DecidableEq

namespace Adjustment

def apply (config : Config) : Adjustment → Config
  | .spread degrees => { config with spread := degrees }
  | .iterations passes => { config with iterations := passes }

def spread? : Adjustment → Option Float32
  | .spread degrees => some degrees
  | .iterations _ => none

def iterations? : Adjustment → Option UInt32
  | .spread _ => none
  | .iterations passes => some passes

/-- The configuration with the last value of either kind. -/
def applyLast (config : Config) (adjustments : List Adjustment) : Config :=
  { config with
    spread := (adjustments.filterMap spread?).getLast?.getD config.spread
    iterations := (adjustments.filterMap iterations?).getLast?.getD config.iterations }

@[simp]
theorem applyLast_nil (config : Config) : applyLast config [] = config := rfl

theorem applyLast_cons (config : Config) (adjustment : Adjustment) (rest : List Adjustment) :
    applyLast config (adjustment :: rest) = applyLast (adjustment.apply config) rest := by
  cases adjustment <;> simp [applyLast, apply, spread?, iterations?, List.getLast?_cons]

end Adjustment

namespace Plant

def adjust (plant : Plant) : Adjustment → Except Failure Plant
  | .spread degrees => plant.withSpread degrees
  | .iterations passes => plant.withIterations passes

/-- The plant after some adjustments, those that fail leaving it as it is. -/
def adjusted (plant : Plant) : List Adjustment → Plant
  | [] => plant
  | adjustment :: rest =>
    match plant.adjust adjustment with
    | .ok next => next.adjusted rest
    | .error _ => plant.adjusted rest

/-- The adjustments that succeed. -/
def successes (plant : Plant) : List Adjustment → List Adjustment
  | [] => []
  | adjustment :: rest =>
    match plant.adjust adjustment with
    | .ok next => adjustment :: next.successes rest
    | .error _ => plant.successes rest

/-! ## One adjustment -/

/-- The plant is what its own configuration grows. -/
def Fresh (plant : Plant) : Prop := grow plant.config = .ok plant

variable {config : Config} {plant next : Plant}

theorem config_of_grow (hgrow : grow config = .ok plant) : plant.config = config := by
  rw [(of_grow hgrow (valid_of_grow hgrow)).2]

theorem fresh_of_grow (hgrow : grow config = .ok plant) : plant.Fresh := by
  rw [Fresh, config_of_grow hgrow]
  exact hgrow

theorem withSpread_of_finite (hvalid : plant.config.Valid) {degrees : Float32}
    (hfinite : degrees.isFinite = true) :
    plant.withSpread degrees = .ok { plant with
      config := { plant.config with spread := degrees }
      interpreter := { plant.config with spread := degrees }.interpreter } := by
  rw [withSpread, Config.validate_eq_ok_iff.2 (hvalid.withSpread hfinite)]
  rfl

theorem withSpread_of_not_finite (hvalid : plant.config.Valid) {degrees : Float32}
    (hinfinite : degrees.isFinite = false) :
    plant.withSpread degrees = .error (.invalidSetting (.spreadNotFinite degrees)) := by
  rw [withSpread, hvalid.validate_spread_of_not_finite hinfinite]
  rfl

/-- Keeping the word under another spread gives what growing anew would give. -/
theorem Fresh.withSpread_eq_grow (hfresh : plant.Fresh) (degrees : Float32) :
    plant.withSpread degrees = grow { plant.config with spread := degrees } := by
  have hvalid := valid_of_grow hfresh
  cases hfinite : degrees.isFinite with
  | true =>
    obtain ⟨hexpand, hplant⟩ := of_grow hfresh hvalid
    have hchanged := hvalid.withSpread hfinite
    have hsame : { plant.config with spread := degrees }.expander.expand hchanged.grammar
        plant.config.iterations.toNat = .ok plant.expanded := hexpand
    have hgrammar : plant.grammar = hvalid.grammar := congrArg Plant.grammar hplant
    rw [withSpread_of_finite hvalid hfinite, grow_of_valid hchanged, hsame, hgrammar]
    rfl
  | false =>
    rw [withSpread_of_not_finite hvalid hfinite,
      grow_of_validate_error (hvalid.validate_spread_of_not_finite hfinite)]

/-- Not expanding anew for the same number of passes gives what growing anew would give. -/
theorem Fresh.withIterations_eq_grow (hfresh : plant.Fresh) (passes : UInt32) :
    plant.withIterations passes = grow { plant.config with iterations := passes } := by
  rw [withIterations]
  split
  · rename_i hsame
    subst hsame
    exact hfresh.symm
  · rfl

theorem Fresh.adjust_eq_grow (hfresh : plant.Fresh) (adjustment : Adjustment) :
    plant.adjust adjustment = grow (adjustment.apply plant.config) := by
  cases adjustment with
  | spread degrees => exact hfresh.withSpread_eq_grow degrees
  | iterations passes => exact hfresh.withIterations_eq_grow passes

/-! ## Histories -/

theorem Fresh.adjusted (hfresh : plant.Fresh) (adjustments : List Adjustment) :
    (plant.adjusted adjustments).Fresh ∧
      (plant.adjusted adjustments).config =
        Adjustment.applyLast plant.config (plant.successes adjustments) := by
  induction adjustments generalizing plant with
  | nil => exact ⟨hfresh, rfl⟩
  | cons adjustment rest ih =>
    rw [Plant.adjusted, successes]
    cases hadjust : plant.adjust adjustment with
    | error failure => exact ih hfresh
    | ok next =>
      rw [hfresh.adjust_eq_grow] at hadjust
      rw [Adjustment.applyLast_cons, ← config_of_grow hadjust]
      exact ih (fresh_of_grow hadjust)

/-- An expansion has nothing to do with the spread, as long as that is finite. -/
theorem expanded_grow_spread (hvalid : config.Valid) {spread : Float32}
    (hfinite : spread.isFinite = true) :
    (grow { config with spread }).map Plant.expanded = (grow config).map Plant.expanded := by
  rw [grow_of_valid hvalid, grow_of_valid (hvalid.withSpread hfinite)]
  have hsame : { config with spread }.expander.expand (hvalid.withSpread hfinite).grammar
      config.iterations.toNat = config.expander.expand hvalid.grammar config.iterations.toNat := rfl
  rw [hsame]
  cases config.expander.expand hvalid.grammar config.iterations.toNat <;> rfl

theorem eq_expansionLimit_of_grow_error (hvalid : config.Valid) {failure : Failure}
    (hgrow : grow config = .error failure) : ∃ report, failure = .expansionLimit report := by
  rw [grow_of_valid hvalid] at hgrow
  split at hgrow
  · rename_i report _
    cases hgrow
    exact ⟨report, rfl⟩
  · cases hgrow

/-- After any adjustments a grown plant is what its own configuration grows, which is the first one
with the last spread and number of iterations that were accepted. Whether a further adjustment
succeeds, and what it expands to, depends on the first configuration and that adjustment alone. -/
theorem adjusted_plant_is_fresh (config : Config) (plant : Plant) (hgrow : grow config = .ok plant)
    (adjustments : List Adjustment) :
    grow (plant.adjusted adjustments).config = .ok (plant.adjusted adjustments) ∧
    (plant.adjusted adjustments).config =
      Adjustment.applyLast config (plant.successes adjustments) ∧
    (∀ degrees,
      ((∃ next, (plant.adjusted adjustments).withSpread degrees = .ok next) ↔
        degrees.isFinite = true) ∧
      (degrees.isFinite = false → (plant.adjusted adjustments).withSpread degrees =
        .error (.invalidSetting (.spreadNotFinite degrees)))) ∧
    (∀ passes,
      ((plant.adjusted adjustments).withIterations passes).map Plant.expanded =
        (grow { config with iterations := passes }).map Plant.expanded ∧
      ∀ failure, (plant.adjusted adjustments).withIterations passes = .error failure →
        ∃ report, failure = .expansionLimit report) := by
  obtain ⟨hfresh, hconfig⟩ := (fresh_of_grow hgrow).adjusted adjustments
  rw [config_of_grow hgrow] at hconfig
  have hvalid := valid_of_grow hfresh
  refine ⟨hfresh, hconfig, ?_, ?_⟩
  · intro degrees
    refine ⟨?_, withSpread_of_not_finite hvalid⟩
    cases hfinite : degrees.isFinite with
    | true => simp [withSpread_of_finite hvalid hfinite]
    | false => simp [withSpread_of_not_finite hvalid hfinite]
  · intro passes
    rw [hfresh.withIterations_eq_grow]
    refine ⟨?_, fun failure ↦ eq_expansionLimit_of_grow_error (hvalid.withIterations passes)⟩
    have hsame : { (plant.adjusted adjustments).config with iterations := passes } =
        { { config with iterations := passes } with
          spread := (plant.adjusted adjustments).config.spread } := by
      rw [hconfig]
      rfl
    rw [hsame]
    exact expanded_grow_spread ((valid_of_grow hgrow).withIterations passes) hvalid.spread

/-- An expansion that meets the cap and a spread that is not finite leave no trace. -/
theorem adjusted_plant_is_fresh_shoot :
    ∃ plant, grow Config.shoot = .ok plant ∧
      grow (plant.adjusted
          [.iterations 9, .spread 90, .spread (1 / 0), .iterations 2, .spread 30]).config =
        .ok (plant.adjusted
          [.iterations 9, .spread 90, .spread (1 / 0), .iterations 2, .spread 30]) ∧
      (plant.adjusted
          [.iterations 9, .spread 90, .spread (1 / 0), .iterations 2, .spread 30]).config =
        { Config.shoot with spread := 30, iterations := 2 } := by
  obtain ⟨hfresh, hconfig, -⟩ := adjusted_plant_is_fresh Config.shoot _ rfl
    [.iterations 9, .spread 90, .spread (1 / 0), .iterations 2, .spread 30]
  exact ⟨_, rfl, hfresh, hconfig⟩

end Plant

end PlantGrowth
