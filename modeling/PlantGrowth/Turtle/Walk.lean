import PlantGrowth.Scene.Placement
import PlantGrowth.Turtle.State

/-!
# Walks

A walk carries out instructions one after another. It holds the turtle, the states remembered at
open branches and the placements emitted so far. Drawing places a branch mesh at the state before
the move; an ornament is placed without moving. A walk is interrupted by closing a branch that was
not opened or by opening one more branch than the settings allow, and an interruption keeps what
was placed before it.
-/

namespace PlantGrowth.Turtle

open Scene

inductive Fault
  | unmatchedPop
  | stackOverflow (depth : Nat)
  deriving DecidableEq, Repr

/-- A fault, the position of the instruction that caused it and the placements before it. -/
structure Interruption (α : Type) where
  fault : Fault
  position : Nat
  placements : List (Placement α)
  deriving DecidableEq, Repr

structure Walk (α : Type) where
  turtle : State α
  stack : List (State α)
  placed : Array (Placement α)

section Instructions

variable {α : Type} [Mul α] [Elementary α]

/-- The length an instruction moves by: its argument without sign, else the effective step. -/
def Instruction.length (instruction : Instruction α) (state : State α) : α :=
  match instruction.argument with
  | some length => Elementary.abs length
  | none => state.effectiveStep

/-- The angle of a rotation by a factor of the spread, which an argument stands in for. -/
def Instruction.angle (instruction : Instruction α) (state : State α) (factor : α) : α :=
  instruction.argument.getD state.spread * factor

/-- The placement that an instruction emits at a state. -/
def State.emit? (state : State α) (instruction : Instruction α) : Option (Placement α) :=
  match instruction.op with
  | .draw => some ⟨.branch, state.position, state.rotation, instruction.length state⟩
  | .ornament => some ⟨.ornament, state.position, state.rotation, state.scale⟩
  | _ => none

variable [Add α] [Sub α] [Div α] [Neg α] [OfNat α 0] [OfNat α 1] [OfNat α 2]

/-- The state after an instruction; opening and closing branches are not its affair. -/
def State.advance (state : State α) (shrinkFactor : α) (instruction : Instruction α) : State α :=
  match instruction.op with
  | .draw | .move => state.forward (instruction.length state)
  | .yaw factor => state.turn .up (instruction.angle state factor)
  | .pitch factor => state.turn .right (instruction.angle state factor)
  | .roll factor => state.turn .heading (instruction.angle state factor)
  | .turn axis degrees => state.turn axis (instruction.argument.getD degrees)
  | .shrink => state.scaled shrinkFactor
  | .setSpread degrees => state.withSpread (instruction.argument.getD degrees)
  | .setStep length => state.withStepLength (Elementary.abs (instruction.argument.getD length))
  | .ornament | .push | .pop | .ignore => state

namespace Walk

def start (root : State α) : Walk α := ⟨root, [], #[]⟩

def step (settings : Settings α) (walk : Walk α) (instruction : Instruction α) :
    Except Fault (Walk α) :=
  match instruction.op with
  | .push =>
    if walk.stack.length < settings.maxStackDepth then
      .ok { walk with stack := walk.turtle :: walk.stack }
    else
      .error (.stackOverflow settings.maxStackDepth)
  | .pop =>
    match walk.stack with
    | [] => .error .unmatchedPop
    | remembered :: stack => .ok { walk with turtle := remembered, stack }
  | _ =>
    .ok { walk with
      turtle := walk.turtle.advance settings.shrinkFactor instruction
      placed := (walk.turtle.emit? instruction).elim walk.placed walk.placed.push }

/-- Carries out instructions whose first one has the given position. -/
def follow (settings : Settings α) :
    Nat → Walk α → List (Instruction α) → Except (Interruption α) (Walk α)
  | _, walk, [] => .ok walk
  | position, walk, instruction :: rest =>
    match walk.step settings instruction with
    | .error fault => .error ⟨fault, position, walk.placed.toList⟩
    | .ok next => follow settings (position + 1) next rest

/-- The placements of a whole walk. Branches left open at the end are no fault. -/
def placements (settings : Settings α) (root : State α) (instructions : List (Instruction α)) :
    Except (Interruption α) (List (Placement α)) :=
  (follow settings 0 (start root) instructions).map fun walk => walk.placed.toList

end Walk

end Instructions

end PlantGrowth.Turtle
