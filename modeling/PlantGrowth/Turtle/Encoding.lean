import PlantGrowth.Scene.Encoding
import PlantGrowth.Turtle.State

/-!
# Turtle values

States are records. Operations and axes are variants: an operation with a parameter carries it,
and a turn carries a record of its axis and angle, the one record that refuses entries beyond its
fields.
-/

namespace PlantGrowth.Turtle

open Toml

namespace Axis

def name : Axis → Word
  | .up => "up".toList
  | .right => "right".toList
  | .heading => "heading".toList

def encode (axis : Axis) : Value := .string axis.name

def decode? (value : Value) : Option Axis := do
  let (name, carried) ← value.variant?
  let axis ← [Axis.up, Axis.right, Axis.heading].find? fun axis => axis.name == name
  if Value.carriesNothing carried then some axis else none

end Axis

namespace State

def fieldNames : List Word :=
  ["position".toList, "rotation".toList, "step_length".toList, "spread".toList, "scale".toList]

def encode (state : State Float32) : Value :=
  .record [("position", state.position.encode), ("rotation", state.rotation.encode),
    ("step_length", .ofFloat32 state.stepLength), ("spread", .ofFloat32 state.spread),
    ("scale", .ofFloat32 state.scale)]

def decode? (value : Value) : Option (State Float32) := do
  match ← value.fields? fieldNames with
  | [position, rotation, stepLength, spread, scale] =>
    return {
      position := ← Vector3.decode? position
      rotation := ← Quaternion.decode? rotation
      stepLength := ← stepLength.float32?
      spread := ← spread.float32?
      scale := ← scale.float32? }
  | _ => none

end State

namespace Op

def name {α : Type} : Op α → String
  | .draw => "draw"
  | .move => "move"
  | .ornament => "ornament"
  | .yaw _ => "yaw"
  | .pitch _ => "pitch"
  | .roll _ => "roll"
  | .turn _ _ => "turn"
  | .shrink => "shrink"
  | .setSpread _ => "set_spread"
  | .setStep _ => "set_step"
  | .push => "push"
  | .pop => "pop"
  | .ignore => "ignore"

/-- What the variant of an operation carries. -/
def carried? : Op Float32 → Option Value
  | .yaw number | .pitch number | .roll number | .setSpread number | .setStep number =>
    some (.ofFloat32 number)
  | .turn axis degrees => some (.record [("axis", axis.encode), ("degrees", .ofFloat32 degrees)])
  | _ => none

def encode (op : Op Float32) : Value :=
  match op.carried? with
  | none => .string op.name.toList
  | some carried => .record [(op.name, carried)]

/-- The operations that carry nothing. -/
def plain : List (Op Float32) := [.draw, .move, .ornament, .shrink, .push, .pop, .ignore]

/-- The operations that carry one number, made from it. -/
def numeric : List (Float32 → Op Float32) := [.yaw, .pitch, .roll, .setSpread, .setStep]

def decodeTurn? (carried : Value) : Option (Op Float32) := do
  match ← carried.exactFields? ["axis".toList, "degrees".toList] with
  | [axis, degrees] => return .turn (← Axis.decode? axis) (← degrees.float32?)
  | _ => none

def decode? (value : Value) : Option (Op Float32) := do
  let (name, carried) ← value.variant?
  match plain.find? fun op => op.name.toList == name with
  | some op => if Value.carriesNothing carried then some op else none
  | none =>
    let content ← carried
    if name == "turn".toList then decodeTurn? content
    else
      let make ← numeric.find? fun make => (make 0).name.toList == name
      return make (← content.float32?)

end Op

end PlantGrowth.Turtle
