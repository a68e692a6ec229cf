import PlantGrowth.Plant.Failure
import PlantGrowth.Scene.Placement
import PlantGrowth.Turtle.Interpreter

/-!
# Configurations

A configuration is everything needed to expand, interpret and place one plant. Rules and operations
are keyed by words, of which only words of one symbol are meaningful; validation reports the first
value that no plant can be grown from.
-/

namespace PlantGrowth

open Scene Turtle

structure Config where
  seed : Word
  iterations : UInt32
  spread : Float32
  stepLength : Float32
  shrinkFactor : Float32
  maxSymbols : Option Nat
  maxStackDepth : Nat
  origin : Vector3 Float32
  rules : Table Word Word
  symbols : Table Word (Op Float32)
  branchMesh : MeshFrame Float32
  ornamentMesh : MeshFrame Float32
  deriving BEq

namespace Config

/-- The sample scene: two trunk segments, an invisible spacer and a flower. -/
def sample : Config where
  seed := "FF[f]A".toList
  iterations := 1
  spread := Settings.default.spread
  stepLength := Settings.default.stepLength
  shrinkFactor := Settings.default.shrinkFactor
  maxSymbols := some 4194304
  maxStackDepth := Settings.default.maxStackDepth
  origin := Settings.default.origin
  rules := Table.empty
  symbols := Table.empty
  branchMesh := MeshFrame.aligned
  ornamentMesh := { MeshFrame.aligned with offset := ⟨0.75, -1, 0⟩, scale := 10 }

def setRule (config : Config) (symbol : Char) (replacement : Word) : Config :=
  { config with rules := config.rules.insert [symbol] replacement }

/-! ## Validation -/

/-- The keys of the rules followed by those of the symbols. -/
def keys (config : Config) : List Word := config.rules.keys ++ config.symbols.keys

/-- The first setting that is out of range. -/
def settingFault? (config : Config) : Option SettingFault :=
  match config.keys.find? fun key => key.single?.isNone with
  | some key => some (.keyNotSingle key)
  | none =>
    if !config.spread.isFinite then some (.spreadNotFinite config.spread)
    else if !(config.stepLength.isFinite && 0 < config.stepLength) then
      some (.stepLengthNotPositive config.stepLength)
    else if !(0 < config.shrinkFactor && config.shrinkFactor ≤ 1) then
      some (.shrinkFactorOutOfRange config.shrinkFactor)
    else if !config.origin.all Float32.isFinite then some .originNotFinite
    else none

def validate (config : Config) : Except Failure Unit :=
  if config.seed.isEmpty then .error .emptySeed
  else
    match config.settingFault? with
    | some fault => .error (.invalidSetting fault)
    | none => .ok ()

/-! ## The parts of the pipeline -/

/-- The associations of the keys that are one symbol. -/
def symbolEntries {β : Type} (table : Table Word β) : List (Char × β) :=
  table.entries.filterMap fun entry => entry.1.single?.map fun symbol => (symbol, entry.2)

def grammar (config : Config) : Except Failure Grammar := do
  config.validate
  match Grammar.ofSeed? config.seed with
  | none => .error .emptySeed
  | some grammar => .ok (grammar.setRules (symbolEntries config.rules))

/-- The standard convention under the configured operations. -/
def convention (config : Config) : Convention Float32 :=
  Convention.standard.setAll (symbolEntries config.symbols)

def settings (config : Config) : Settings Float32 where
  origin := config.origin
  stepLength := config.stepLength
  spread := config.spread
  shrinkFactor := config.shrinkFactor
  maxStackDepth := config.maxStackDepth

def interpreter (config : Config) : Interpreter Float32 :=
  { settings := config.settings, convention := config.convention }

def expander (config : Config) : Expander := ⟨config.maxSymbols⟩

end Config

end PlantGrowth
