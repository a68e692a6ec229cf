import PlantGrowth.Scene.Placement
import PlantGrowth.Toml.Value

/-!
# Scenes as values

Vectors and quaternions are arrays of their coordinates, of which further elements are ignored.
Meshes are variants without content; frames, placements and lists of placements are records.
-/

namespace PlantGrowth

open Toml

def Vector3.encode (vector : Vector3 Float32) : Value := .ofFloats vector.toList

def Vector3.decode? : Value → Option (Vector3 Float32)
  | .array (x :: y :: z :: _) => do
    return ⟨← x.float32?, ← y.float32?, ← z.float32?⟩
  | _ => none

def Quaternion.encode (rotation : Quaternion Float32) : Value := .ofFloats rotation.toList

def Quaternion.decode? : Value → Option (Quaternion Float32)
  | .array (x :: y :: z :: w :: _) => do
    return ⟨← x.float32?, ← y.float32?, ← z.float32?, ← w.float32?⟩
  | _ => none

namespace Scene

def Mesh.name : Mesh → Word
  | .branch => "branch".toList
  | .ornament => "ornament".toList

def Mesh.encode (mesh : Mesh) : Value := .string mesh.name

def Mesh.decode? (value : Value) : Option Mesh := do
  let (name, carried) ← value.variant?
  let mesh ← [Mesh.branch, Mesh.ornament].find? fun mesh => mesh.name == name
  if Value.carriesNothing carried then some mesh else none

namespace MeshFrame

def fieldNames : List Word := ["offset".toList, "rotation".toList, "scale".toList]

def encode (frame : MeshFrame Float32) : Value :=
  .record [("offset", frame.offset.encode), ("rotation", frame.rotation.encode),
    ("scale", .ofFloat32 frame.scale)]

def decode? (value : Value) : Option (MeshFrame Float32) := do
  match ← value.fields? fieldNames with
  | [offset, rotation, scale] =>
    return {
      offset := ← Vector3.decode? offset
      rotation := ← Quaternion.decode? rotation
      scale := ← scale.float32? }
  | _ => none

end MeshFrame

namespace Placement

def fieldNames : List Word :=
  ["mesh".toList, "translation".toList, "rotation".toList, "scale".toList]

def encode (placement : Placement Float32) : Value :=
  .record [("mesh", placement.mesh.encode), ("translation", placement.position.encode),
    ("rotation", placement.rotation.encode), ("scale", .ofFloat32 placement.scale)]

def decode? (value : Value) : Option (Placement Float32) := do
  match ← value.fields? fieldNames with
  | [mesh, position, rotation, scale] =>
    return {
      mesh := ← Mesh.decode? mesh
      position := ← Vector3.decode? position
      rotation := ← Quaternion.decode? rotation
      scale := ← scale.float32? }
  | _ => none

end Placement

def encodePlacements (placements : List (Placement Float32)) : Value :=
  .record [("placements", .array (placements.map Placement.encode))]

def decodePlacements? (value : Value) : Option (List (Placement Float32)) := do
  match ← value.fields? ["placements".toList] with
  | [.array elements] => elements.mapM Placement.decode?
  | _ => none

end Scene

end PlantGrowth
