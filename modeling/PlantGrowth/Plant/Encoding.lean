import PlantGrowth.Plant.Config
import PlantGrowth.Toml.Document.Printer
import PlantGrowth.Toml.Document.Reader
import PlantGrowth.Turtle.Encoding

/-!
# Written configurations

A configuration is a document with one entry per field. An entry that is missing takes its value
from the sample scene and an unknown one is ignored. An absent symbol cap is not written, so it
reads back as the cap of the sample scene. Reading validates; writing does not.
-/

namespace PlantGrowth.Config

open Scene Toml Turtle

/-! ## Encoding -/

def encodeRules (rules : Table Word Word) : Value :=
  .table (rules.entries.map fun entry => (entry.1, .string entry.2))

def encodeSymbols (symbols : Table Word (Op Float32)) : Value :=
  .table (symbols.entries.map fun entry => (entry.1, entry.2.encode))

def encode (config : Config) : Entries :=
  [("axiom".toList, .string config.seed),
   ("iterations".toList, .integer config.iterations.toNat),
   ("spread".toList, .ofFloat32 config.spread),
   ("step_length".toList, .ofFloat32 config.stepLength),
   ("shrink_factor".toList, .ofFloat32 config.shrinkFactor)] ++
  (config.maxSymbols.map fun cap => ("max_symbols".toList, Value.integer cap)).toList ++
  [("max_stack_depth".toList, .integer config.maxStackDepth),
   ("origin".toList, config.origin.encode),
   ("rules".toList, encodeRules config.rules),
   ("symbols".toList, encodeSymbols config.symbols),
   ("branch_mesh".toList, config.branchMesh.encode),
   ("ornament_mesh".toList, config.ornamentMesh.encode)]

/-! ## Decoding -/

/-- The table of decoded entries. -/
def decodeTable? {β : Type} (decode : Value → Option β) (value : Value) :
    Option (Table Word β) := do
  let entries ← value.entries?
  let decoded ← entries.mapM fun entry => (decode entry.2).map fun content => (entry.1, content)
  return Table.ofList decoded

def iterations? (value : Value) : Option UInt32 :=
  value.natural?.bind fun number =>
    if number < UInt32.size then some (UInt32.ofNat number) else none

/-- The entry of a name, or the fallback where there is none. -/
def entryOr {β : Type} (entries : Entries) (name : String) (fallback : β)
    (decode : Value → Option β) : Option β :=
  match entries.lookup name.toList with
  | none => some fallback
  | some value => decode value

def decode? (entries : Entries) : Option Config := do
  return {
    seed := ← entryOr entries "axiom" sample.seed Value.text?
    iterations := ← entryOr entries "iterations" sample.iterations iterations?
    spread := ← entryOr entries "spread" sample.spread Value.float32?
    stepLength := ← entryOr entries "step_length" sample.stepLength Value.float32?
    shrinkFactor := ← entryOr entries "shrink_factor" sample.shrinkFactor Value.float32?
    maxSymbols := ← entryOr entries "max_symbols" sample.maxSymbols fun value =>
      value.natural?.map some
    maxStackDepth := ← entryOr entries "max_stack_depth" sample.maxStackDepth Value.natural?
    origin := ← entryOr entries "origin" sample.origin Vector3.decode?
    rules := ← entryOr entries "rules" sample.rules (decodeTable? Value.text?)
    symbols := ← entryOr entries "symbols" sample.symbols (decodeTable? Op.decode?)
    branchMesh := ← entryOr entries "branch_mesh" sample.branchMesh MeshFrame.decode?
    ornamentMesh := ← entryOr entries "ornament_mesh" sample.ornamentMesh MeshFrame.decode? }

/-! ## Documents -/

/-- Reads a configuration and validates it. -/
def read (text : Word) : Except Failure Config :=
  match (Toml.read? text).bind decode? with
  | none => .error .unreadableDocument
  | some config => config.validate.map fun _ => config

def write (config : Config) : Except Failure Word :=
  match Toml.write? config.encode with
  | none => .error .unwritableDocument
  | some text => .ok text

end PlantGrowth.Config
