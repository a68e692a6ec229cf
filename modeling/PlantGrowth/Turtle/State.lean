import PlantGrowth.Geometry

/-!
# Turtle states and operations

A turtle has a position, an orientation, a step length, a spread angle in degrees and an
accumulated scale. In its own frame `+Z` is the heading, `+Y` is up and `+X` is right. Every
change returns a new state, so a remembered state is never changed by later moves.

The settings are what a walk starts from and what its instructions refer to. An operation is what a
symbol can make the turtle do: the rotations `yaw`, `pitch` and `roll` carry a factor on the spread
of the moment, while `turn` has an angle of its own.
-/

namespace PlantGrowth.Turtle

/-! ## States -/

/-- One of the turtle's own basis vectors, as an axis of rotation. -/
inductive Axis
  | up
  | right
  | heading
  deriving DecidableEq, Repr

def Axis.vector {α : Type} [OfNat α 0] [OfNat α 1] : Axis → Vector3 α
  | .up => Vector3.unitY
  | .right => Vector3.unitX
  | .heading => Vector3.unitZ

structure State (α : Type) where
  position : Vector3 α
  rotation : Quaternion α
  stepLength : α
  spread : α
  scale : α
  deriving BEq, DecidableEq, Repr

namespace State

variable {α : Type}

section Frame

variable [Add α] [Sub α] [Mul α] [OfNat α 0] [OfNat α 1] [OfNat α 2]

/-- The image of one of the turtle's own basis vectors. -/
def basis (state : State α) (axis : Axis) : Vector3 α := state.rotation.rotate axis.vector

def heading (state : State α) : Vector3 α := state.basis .heading

def up (state : State α) : Vector3 α := state.basis .up

def right (state : State α) : Vector3 α := state.basis .right

/-- Moves along the heading. -/
def forward (state : State α) (length : α) : State α :=
  { state with position := state.position + state.heading.scale length }

end Frame

/-- Turns the whole frame about one of its own axes. -/
def turn [Add α] [Sub α] [Mul α] [Div α] [Neg α] [OfNat α 0] [OfNat α 1] [Elementary α]
    (state : State α) (axis : Axis) (degrees : α) : State α :=
  let radians := degrees * Elementary.radiansPerDegree
  { state with
    rotation := (state.rotation.compose (Quaternion.ofAxisAngle axis.vector radians)).normalize }

def withSpread (state : State α) (degrees : α) : State α := { state with spread := degrees }

def withStepLength (state : State α) (length : α) : State α := { state with stepLength := length }

def scaled [Mul α] (state : State α) (factor : α) : State α :=
  { state with scale := state.scale * factor }

/-- The length of one step at the accumulated scale. -/
def effectiveStep [Mul α] (state : State α) : α := state.stepLength * state.scale

/-- The rigid map from the turtle's frame to the world. -/
def transform [Add α] [Sub α] [Mul α] [OfNat α 1] (state : State α) : Affine α :=
  Affine.rigid state.rotation state.position

end State

/-! ## Settings -/

structure Settings (α : Type) where
  origin : Vector3 α
  stepLength : α
  spread : α
  shrinkFactor : α
  maxStackDepth : Nat
  deriving BEq, DecidableEq, Repr

namespace Settings

def default : Settings Float32 where
  origin := Vector3.zero
  stepLength := 1
  spread := 60
  shrinkFactor := 0.8
  maxStackDepth := 1024

/-- At the origin, facing `+Z` with `+Y` up, at unit scale. -/
def root {α : Type} [OfNat α 0] [OfNat α 1] (settings : Settings α) : State α where
  position := settings.origin
  rotation := Quaternion.identity
  stepLength := settings.stepLength
  spread := settings.spread
  scale := 1

end Settings

/-! ## Operations -/

inductive Op (α : Type)
  | draw
  | move
  | ornament
  | yaw (factor : α)
  | pitch (factor : α)
  | roll (factor : α)
  | turn (axis : Axis) (degrees : α)
  | shrink
  | setSpread (degrees : α)
  | setStep (length : α)
  | push
  | pop
  | ignore
  deriving BEq, DecidableEq, Repr

def Op.isIgnore {α : Type} : Op α → Bool
  | .ignore => true
  | _ => false

/-- An operation together with the value, if any, that overrides its length or angle. -/
structure Instruction (α : Type) where
  op : Op α
  argument : Option α
  deriving BEq, DecidableEq, Repr

end PlantGrowth.Turtle
