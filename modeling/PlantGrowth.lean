import PlantGrowth.Geometry
import PlantGrowth.Grammar.Basic
import PlantGrowth.Grammar.Expansion
import PlantGrowth.Number
import PlantGrowth.Plant.Basic
import PlantGrowth.Plant.Config
import PlantGrowth.Plant.Encoding
import PlantGrowth.Plant.Failure
import PlantGrowth.Scene.Encoding
import PlantGrowth.Scene.Placement
import PlantGrowth.Scene.Upload
import PlantGrowth.Table
import PlantGrowth.Toml.Document
import PlantGrowth.Toml.Document.Printer
import PlantGrowth.Toml.Document.Reader
import PlantGrowth.Toml.Quoted
import PlantGrowth.Toml.Scalar
import PlantGrowth.Toml.Value
import PlantGrowth.Turtle.Encoding
import PlantGrowth.Turtle.Interpreter
import PlantGrowth.Turtle.Module
import PlantGrowth.Turtle.State
import PlantGrowth.Turtle.Walk
import PlantGrowth.Word
import PlantGrowth.Proofs.Geometry.Action
import PlantGrowth.Proofs.Geometry.Rotation
import PlantGrowth.Proofs.Grammar.Caps
import PlantGrowth.Proofs.Grammar.Generations
import PlantGrowth.Proofs.Grammar.Histories
import PlantGrowth.Proofs.Grammar.Nesting
import PlantGrowth.Proofs.Grammar.Overrun
import PlantGrowth.Proofs.Grammar.Reachable
import PlantGrowth.Proofs.Grammar.Renaming
import PlantGrowth.Proofs.Grammar.Resumption
import PlantGrowth.Proofs.Grammar.Rule
import PlantGrowth.Proofs.Grammar.Yield
import PlantGrowth.Proofs.Number.Division
import PlantGrowth.Proofs.Number.Packing
import PlantGrowth.Proofs.Number.Rounding
import PlantGrowth.Proofs.Number.Shortest
import PlantGrowth.Proofs.Number.Sign
import PlantGrowth.Proofs.Plant.Adjustment
import PlantGrowth.Proofs.Plant.Config
import PlantGrowth.Proofs.Plant.Document
import PlantGrowth.Proofs.Plant.Encoding
import PlantGrowth.Proofs.Plant.Growth
import PlantGrowth.Proofs.Plant.Nesting
import PlantGrowth.Proofs.Plant.Separation
import PlantGrowth.Proofs.Plant.Tables
import PlantGrowth.Proofs.Plant.Upright
import PlantGrowth.Proofs.Scene.Batch
import PlantGrowth.Proofs.Scene.Correction
import PlantGrowth.Proofs.Scene.Upload
import PlantGrowth.Proofs.Table
import PlantGrowth.Proofs.Text.Blank
import PlantGrowth.Proofs.Toml.Digits
import PlantGrowth.Proofs.Toml.Quoted
import PlantGrowth.Proofs.Toml.Reader
import PlantGrowth.Proofs.Toml.Record
import PlantGrowth.Proofs.Toml.Scalar
import PlantGrowth.Proofs.Toml.Tables
import PlantGrowth.Proofs.Toml.Tree
import PlantGrowth.Proofs.Turtle.ActivePath
import PlantGrowth.Proofs.Turtle.Branch
import PlantGrowth.Proofs.Turtle.Contiguity
import PlantGrowth.Proofs.Turtle.Convention
import PlantGrowth.Proofs.Turtle.Encoding
import PlantGrowth.Proofs.Turtle.Height
import PlantGrowth.Proofs.Turtle.Interruption
import PlantGrowth.Proofs.Turtle.Module
import PlantGrowth.Proofs.Turtle.OperationMap
import PlantGrowth.Proofs.Turtle.Padding
import PlantGrowth.Proofs.Turtle.Serialization
import PlantGrowth.Proofs.Turtle.Subplant
import PlantGrowth.Proofs.Turtle.Walk
import PlantGrowth.Proofs.Word
