import PlantGrowth.Proofs.Number.Sign
import PlantGrowth.Proofs.Plant.Config
import PlantGrowth.Proofs.Turtle.Parallel
import PlantGrowth.Turtle.Module

/-!
# Plants are never mirrored

A kind of numbers that products and absolute values never leave is kept by every walk. If the step
length, the scale and the shrink factor are of the kind, so is the scale of all that is placed. An
instruction may bring any other length, as only its absolute value is used.

A configuration that is valid has a step length and a shrink factor above zero. No operation and no
parameter brings a minus into a walk from its root, so none of its placements has a scale below zero,
which would mirror the mesh.
-/

namespace PlantGrowth

namespace Turtle

/-! ## Upright turtles -/

variable {α : Type} [Mul α] [Elementary α]

/-- Products of numbers of the kind are of the kind, and so are all absolute values. -/
structure Closed (kind : α → Prop) : Prop where
  mul : ∀ {first second : α}, kind first → kind second → kind (first * second)
  abs : ∀ number : α, kind (Elementary.abs number)

/-- Step length and scale are of the kind. -/
structure Upright {α : Type} (kind : α → Prop) (state : State α) : Prop where
  stepLength : kind state.stepLength
  scale : kind state.scale

variable {kind : α → Prop} {state : State α}

theorem Upright.length (hclosed : Closed kind) (hupright : Upright kind state)
    (instruction : Instruction α) : kind (instruction.length state) := by
  unfold Instruction.length
  cases instruction.argument with
  | none => exact hclosed.mul hupright.stepLength hupright.scale
  | some length => exact hclosed.abs length

variable [Add α] [Sub α] [Div α] [Neg α] [OfNat α 0] [OfNat α 1] [OfNat α 2]

theorem Upright.advance {shrinkFactor : α} (hclosed : Closed kind) (hshrink : kind shrinkFactor)
    (hupright : Upright kind state) (instruction : Instruction α) :
    Upright kind (state.advance shrinkFactor instruction) := by
  rcases instruction with ⟨op, argument⟩
  cases op with
  | shrink => exact ⟨hupright.stepLength, hclosed.mul hupright.scale hshrink⟩
  | setStep length => exact ⟨hclosed.abs _, hupright.scale⟩
  | _ => exact ⟨hupright.stepLength, hupright.scale⟩

theorem invariant_upright {shrinkFactor : α} (hclosed : Closed kind) (hshrink : kind shrinkFactor) :
    Invariant shrinkFactor (Upright kind) fun placement ↦ kind placement.scale := by
  constructor
  · intro state instruction hupright
    exact hupright.advance hclosed hshrink instruction
  · intro state instruction hupright placement hplacement
    rcases instruction with ⟨op, argument⟩
    cases op with
    | draw =>
      cases hplacement
      exact hupright.length hclosed _
    | ornament =>
      cases hplacement
      exact hupright.scale
    | _ => cases hplacement

end Turtle

/-! ## Valid configurations -/

open Number Scene Turtle

theorem closed_unsigned : Closed Unsigned :=
  ⟨Unsigned.mul, unsigned_abs⟩

/-- No turtle or remembered state of a walk has a step length or scale with a minus, nor has any
placement that the walk makes before its end or interruption. -/
structure NeverMirrors (settings : Settings Float32) (root : State Float32)
    (instructions : List (Instruction Float32))
    (run : Except (Interruption Float32) (List (Placement Float32))) : Prop where
  states : ∀ (count : ℕ) (walk : Walk Float32),
    Walk.follow settings 0 (Walk.start root) (instructions.take count) = .ok walk →
    Upright Unsigned walk.turtle ∧ ∀ state ∈ walk.stack, Upright Unsigned state
  placements : ∀ placement ∈ placedBy run,
    Unsigned placement.scale ∧ ¬ placement.scale < 0 ∧ placement.scale ≠ -0

namespace Config

variable {config : Config}

theorem Valid.upright_root (hvalid : config.Valid) : Upright Unsigned config.settings.root := by
  have hone : (0 : Float32) < 1 := by decide
  exact ⟨unsigned_of_pos hvalid.stepLength.2, unsigned_of_pos hone⟩

theorem Valid.neverMirrors (hvalid : config.Valid) (instructions : List (Instruction Float32)) :
    NeverMirrors config.settings config.settings.root instructions
      (Walk.placements config.settings config.settings.root instructions) := by
  have hinvariant : Invariant config.settings.shrinkFactor (Upright Unsigned) fun placement ↦
      Unsigned placement.scale :=
    invariant_upright closed_unsigned (unsigned_of_pos hvalid.shrinkFactor.1)
  constructor
  · intro count walk hfollow
    exact hinvariant.of_follow hvalid.upright_root hfollow
  · intro placement hplacement
    have hunsigned := hinvariant.of_placedBy hvalid.upright_root placement hplacement
    exact ⟨hunsigned, hunsigned.not_neg, hunsigned.ne_neg_zero⟩

/-- Whatever a valid configuration interprets from its root, words or modules with parameters, no
minus gets into the step length or scale of a state or into the scale of a placement. -/
theorem valid_configs_never_mirror (config : Config) (hvalid : config.validate = .ok ()) :
    (∀ word : Word,
      NeverMirrors config.settings config.interpreter.root (config.interpreter.instructions word)
        (config.interpreter.interpret word config.interpreter.root)) ∧
    ∀ (table : SymbolTable) (modules : List Module),
      NeverMirrors config.settings config.interpreter.root
        (modules.map (Module.instruction (config.interpreter.convention.opMap table)))
        (config.interpreter.interpretModules modules table config.interpreter.root) := by
  rw [validate_eq_ok_iff] at hvalid
  constructor
  · intro word
    exact hvalid.neverMirrors _
  · intro table modules
    exact hvalid.neverMirrors _

/-- The sample with a symbol that sets a step below zero. -/
def backward : Config := { sample with symbols := Table.ofList [(['s'], .setStep (-2))] }

/-- A branch and an ornament after that symbol, and a branch with a length below zero. -/
theorem valid_configs_never_mirror_backward :
    backward.validate = .ok () ∧
    (∀ placement ∈ placedBy (backward.interpreter.interpret "sF[!A".toList backward.settings.root),
      ¬ placement.scale < 0) ∧
    ∀ placement ∈ placedBy (backward.interpreter.interpretModules [⟨0, [-3]⟩]
      (SymbolTable.ofNames [['F']]) backward.settings.root), ¬ placement.scale < 0 := by
  have hvalid : backward.validate = .ok () := rfl
  obtain ⟨hwords, hmodules⟩ := valid_configs_never_mirror backward hvalid
  refine ⟨hvalid, ?_, ?_⟩
  · intro placement hplacement
    exact ((hwords _).placements placement hplacement).2.1
  · intro placement hplacement
    exact ((hmodules _ _).placements placement hplacement).2.1

end Config

end PlantGrowth
