import PlantGrowth.Plant.Config
import PlantGrowth.Scene.Upload

/-!
# Plants

A plant is a configuration with its grammar, interpreter and expanded word. Expansion depends on
the seed, the rules and the number of iterations alone, so a plant with another spread keeps the
word of the one it came from.
-/

namespace PlantGrowth

open Scene Turtle

structure Plant where
  config : Config
  grammar : Grammar
  interpreter : Interpreter Float32
  expanded : Word

namespace Plant

/-- Validates a configuration and expands its grammar. -/
def grow (config : Config) : Except Failure Plant := do
  let grammar ← config.grammar
  let expanded ← (config.expander.expand grammar config.iterations.toNat).mapError .expansionLimit
  return { config, grammar, interpreter := config.interpreter, expanded }

/-- The same word under another spread. -/
def withSpread (plant : Plant) (spread : Float32) : Except Failure Plant := do
  let config := { plant.config with spread }
  config.validate
  return { plant with config, interpreter := config.interpreter }

/-- Expands anew unless the number of iterations stays the same. -/
def withIterations (plant : Plant) (iterations : UInt32) : Except Failure Plant :=
  if iterations = plant.config.iterations then .ok plant
  else grow { plant.config with iterations }

def root (plant : Plant) : State Float32 := plant.interpreter.root

/-- Interprets a word from the root state. -/
def interpret (plant : Plant) (word : Word) : Except Failure (List (Placement Float32)) :=
  (plant.interpreter.interpret word plant.root).mapError .interrupted

/-- The placements of the expanded word. -/
def instances (plant : Plant) : Except Failure (List (Placement Float32)) :=
  plant.interpret plant.expanded

def batches (plant : Plant) : Except Failure (Batches Float32) :=
  plant.instances.map fun placements =>
    Batches.build placements plant.config.branchMesh plant.config.ornamentMesh

end Plant

end PlantGrowth
