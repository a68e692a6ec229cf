import PlantGrowth.Proofs.Plant.Adjustment
import PlantGrowth.Proofs.Turtle.Separation
import PlantGrowth.Turtle.Module

/-!
# Plants under another spread

Words and modules are walked with the parts of the root kept apart. As the spread of a configuration
reaches a walk only through its root, a plant under another spread has the same meshes at the same
scales in the same order, and is interrupted at the same symbol if at all.
-/

namespace PlantGrowth

open Scene Turtle

namespace Plant

theorem Fresh.instances_eq {plant : Plant} (hfresh : plant.Fresh) :
    plant.instances = (Walk.placements plant.config.settings plant.config.settings.root
      (plant.config.interpreter.instructions plant.expanded)).mapError .interrupted := by
  rw [(of_grow hfresh (valid_of_grow hfresh)).2]
  rfl

/-- A fresh plant keeps its meshes and scales under another spread. -/
theorem Fresh.withSpread_alike {plant : Plant} (hfresh : plant.Fresh) {spread : Float32}
    (hfinite : spread.isFinite = true) :
    ∃ next run otherRun, plant.withSpread spread = .ok next ∧
      plant.instances = run.mapError .interrupted ∧
      next.instances = otherRun.mapError .interrupted ∧
      PlaceAlike (fun placement other ↦
        placement.mesh = other.mesh ∧ placement.scale = other.scale) run otherRun := by
  have hvalid := valid_of_grow hfresh
  set instructions := plant.config.interpreter.instructions plant.expanded
  set root := plant.config.settings.root
  have hroots : SameSize root { root with spread } := ⟨rfl, rfl⟩
  have halike := Walk.placements_alike (kept_scale plant.config.settings.shrinkFactor) hroots
    instructions
  rw [← Walk.placements_spread _ spread { root with spread }] at halike
  exact ⟨_, _, _, withSpread_of_finite hvalid hfinite, hfresh.instances_eq, rfl, halike⟩

/-- Whatever is interpreted from two roots ends alike and places the same meshes. Only step length
and scale of the root reach the scales of what is placed, and only its rotation and spread reach the
rotations. So under another spread a plant has the same meshes at the same scales, or fails at the
same symbol. -/
theorem parts_of_root_stay_apart :
    (∀ (interpreter : Interpreter Float32) (word : Word),
      Separates fun root ↦ interpreter.interpret word root) ∧
    (∀ (interpreter : Interpreter Float32) (table : SymbolTable) (modules : List Module),
      Separates fun root ↦ interpreter.interpretModules modules table root) ∧
    ∀ (config : Config) (plant : Plant), grow config = .ok plant →
      ∀ (adjustments : List Adjustment) (spread : Float32), spread.isFinite = true →
        ∃ next run otherRun, (plant.adjusted adjustments).withSpread spread = .ok next ∧
          (plant.adjusted adjustments).instances = run.mapError .interrupted ∧
          next.instances = otherRun.mapError .interrupted ∧
          PlaceAlike (fun placement other ↦
            placement.mesh = other.mesh ∧ placement.scale = other.scale) run otherRun := by
  refine ⟨?_, ?_, ?_⟩
  · intro interpreter word
    exact Walk.placements_separates _ _
  · intro interpreter table modules
    exact Walk.placements_separates _ _
  · intro config plant hgrow adjustments spread hfinite
    obtain ⟨hfresh, -⟩ := (fresh_of_grow hgrow).adjusted adjustments
    exact hfresh.withSpread_alike hfinite

/-- A root moved ahead under another spread, and a shoot under another spread. -/
theorem parts_of_root_stay_apart_shoot :
    PlaceAlike (fun placement other ↦ placement.scale = other.scale)
        (Interpreter.interpret ⟨Settings.default, Convention.standard⟩ "F[+!F]A]".toList
          Settings.default.root)
        (Interpreter.interpret ⟨Settings.default, Convention.standard⟩ "F[+!F]A]".toList
          ((Settings.default.root.forward 2).withSpread 90)) ∧
      ∃ plant next run otherRun, grow Config.shoot = .ok plant ∧
        (plant.adjusted [.iterations 2]).withSpread 90 = .ok next ∧
        (plant.adjusted [.iterations 2]).instances = run.mapError .interrupted ∧
        next.instances = otherRun.mapError .interrupted ∧
        PlaceAlike (fun placement other ↦
          placement.mesh = other.mesh ∧ placement.scale = other.scale) run otherRun := by
  obtain ⟨hwords, -, hplants⟩ := parts_of_root_stay_apart
  obtain ⟨next, run, otherRun, halike⟩ :=
    hplants Config.shoot _ rfl [.iterations 2] 90 (by decide)
  exact ⟨(hwords _ _).scales _ _ rfl rfl, _, next, run, otherRun, rfl, halike⟩

end Plant

end PlantGrowth
