import PlantGrowth.Proofs.Turtle.Parallel

/-!
# What a root state reaches

The operations alone decide how a run ends and which meshes it places. Step length and scale reach
the scales of placements and nothing else reaches them, and only rotation and spread reach the
rotations.
-/

namespace PlantGrowth.Turtle

open Scene

variable {α : Type}

/-! ## Parts of states -/

/-- The states have the same step length and the same scale. -/
def SameSize (first second : State α) : Prop :=
  first.stepLength = second.stepLength ∧ first.scale = second.scale

/-- The states have the same rotation and the same spread. -/
def SameFrame (first second : State α) : Prop :=
  first.rotation = second.rotation ∧ first.spread = second.spread

variable {first second : State α} [Mul α]

theorem SameFrame.angle_eq (hframe : SameFrame first second) (instruction : Instruction α)
    (factor : α) : instruction.angle first factor = instruction.angle second factor := by
  unfold Instruction.angle
  rw [hframe.2]

variable [Elementary α]

theorem SameSize.length_eq (hsize : SameSize first second) (instruction : Instruction α) :
    instruction.length first = instruction.length second := by
  unfold Instruction.length State.effectiveStep
  rw [hsize.1, hsize.2]

variable [Add α] [Sub α] [Div α] [Neg α] [OfNat α 0] [OfNat α 1]

theorem SameFrame.turn (hframe : SameFrame first second) (axis : Axis) {degrees others : α}
    (hdegrees : degrees = others) :
    SameFrame (first.turn axis degrees) (second.turn axis others) := by
  refine ⟨?_, hframe.2⟩
  unfold State.turn
  rw [hframe.1, hdegrees]

/-! ## What instructions keep -/

variable [OfNat α 2]

theorem kept_mesh (shrinkFactor : α) :
    Kept shrinkFactor (fun _ _ ↦ True) fun placement other ↦ placement.mesh = other.mesh := by
  refine ⟨fun _ _ ↦ trivial, ?_⟩
  intro first second instruction _
  rcases instruction with ⟨op, argument⟩
  cases op with
  | draw => exact .cons rfl .nil
  | ornament => exact .cons rfl .nil
  | _ => exact .nil

theorem kept_scale (shrinkFactor : α) :
    Kept shrinkFactor SameSize fun placement other ↦
      placement.mesh = other.mesh ∧ placement.scale = other.scale := by
  constructor
  · intro first second instruction hsize
    rcases instruction with ⟨op, argument⟩
    cases op with
    | shrink => exact ⟨hsize.1, congrArg (· * shrinkFactor) hsize.2⟩
    | setStep length => exact ⟨rfl, hsize.2⟩
    | _ => exact hsize
  · intro first second instruction hsize
    rcases instruction with ⟨op, argument⟩
    cases op with
    | draw => exact .cons ⟨rfl, hsize.length_eq _⟩ .nil
    | ornament => exact .cons ⟨rfl, hsize.2⟩ .nil
    | _ => exact .nil

theorem kept_rotation (shrinkFactor : α) :
    Kept shrinkFactor SameFrame fun placement other ↦ placement.rotation = other.rotation := by
  constructor
  · intro first second instruction hframe
    rcases instruction with ⟨op, argument⟩
    cases op with
    | yaw factor => exact hframe.turn _ (hframe.angle_eq _ factor)
    | pitch factor => exact hframe.turn _ (hframe.angle_eq _ factor)
    | roll factor => exact hframe.turn _ (hframe.angle_eq _ factor)
    | turn axis degrees => exact hframe.turn axis rfl
    | setSpread degrees => exact ⟨hframe.1, rfl⟩
    | _ => exact hframe
  · intro first second instruction hframe
    rcases instruction with ⟨op, argument⟩
    cases op with
    | draw => exact .cons hframe.1 .nil
    | ornament => exact .cons hframe.1 .nil
    | _ => exact .nil

/-! ## Runs from two roots -/

/-- How a run ends and what meshes it places does not depend on its root. The scales depend on step
length and scale of the root alone, and the rotations on its rotation and spread alone. -/
structure Separates (run : State α → Except (Interruption α) (List (Placement α))) : Prop where
  meshes : ∀ first second,
    PlaceAlike (fun placement other ↦ placement.mesh = other.mesh) (run first) (run second)
  scales : ∀ first second,
    first.stepLength = second.stepLength → first.scale = second.scale →
    PlaceAlike (fun placement other ↦ placement.scale = other.scale) (run first) (run second)
  rotations : ∀ first second,
    first.rotation = second.rotation → first.spread = second.spread →
    PlaceAlike (fun placement other ↦ placement.rotation = other.rotation) (run first) (run second)

namespace Walk

theorem placements_separates (settings : Settings α) (instructions : List (Instruction α)) :
    Separates fun root ↦ placements settings root instructions := by
  constructor
  · intro first second
    exact placements_alike (kept_mesh settings.shrinkFactor) trivial instructions
  · intro first second hstep hscale
    have halike := placements_alike (kept_scale settings.shrinkFactor) ⟨hstep, hscale⟩ instructions
    apply halike.mono
    intro placement other hsame
    exact hsame.2
  · intro first second hrotation hspread
    exact placements_alike (kept_rotation settings.shrinkFactor) ⟨hrotation, hspread⟩ instructions

/-- The spread of the settings is read only where a walk starts. -/
theorem placements_spread (settings : Settings α) (spread : α) (root : State α)
    (instructions : List (Instruction α)) :
    placements { settings with spread } root instructions =
      placements settings root instructions := by
  have hfollow (position : ℕ) (walk : Walk α) :
      follow { settings with spread } position walk instructions =
        follow settings position walk instructions := by
    induction instructions generalizing position walk with
    | nil => rfl
    | cons instruction rest ih =>
      have hstep : walk.step { settings with spread } instruction =
          walk.step settings instruction := rfl
      rw [follow, follow, hstep]
      cases walk.step settings instruction with
      | error fault => rfl
      | ok next => exact ih (position + 1) next
  rw [placements, placements, hfollow]

end Walk

end PlantGrowth.Turtle
