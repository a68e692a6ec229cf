import PlantGrowth.Scene.Placement

/-!
# Batches and their buffers

The placements of a scene grouped by mesh, each as one matrix that maps mesh space to the world.
They are collected in one pass, so within a group the order is the order of placement. A renderer is
called once for every mesh that has instances, branches first.

A batch is uploaded as bytes for a vertex buffer: sixty-four bytes per matrix, column after column,
every entry as its 32-bit pattern with the least significant byte first. Only the patterns matter, so
a buffer is defined for matrices of arbitrary patterns.
-/

namespace PlantGrowth.Scene

structure Batches (α : Type) where
  branches : List (Matrix4 α)
  ornaments : List (Matrix4 α)
  deriving BEq, DecidableEq, Repr

/-- One instanced drawing call. -/
structure Draw (α : Type) where
  mesh : Mesh
  instances : List (Matrix4 α)
  deriving BEq, DecidableEq, Repr

namespace Batches

variable {α : Type}

def get (batches : Batches α) : Mesh → List (Matrix4 α)
  | .branch => batches.branches
  | .ornament => batches.ornaments

/-! ## Collecting -/

/-- What a pass over the placements has collected so far. -/
structure Pass (α : Type) where
  branches : Array (Matrix4 α)
  ornaments : Array (Matrix4 α)

section Build

variable [Add α] [Sub α] [Mul α] [OfNat α 0] [OfNat α 1]

/-- Corrects the mesh in its own space, then places it. -/
def instanceMatrix (correction : Affine α) (placement : Placement α) : Matrix4 α :=
  (placement.transform.compose correction).matrix

/-- Adds a placement to what is collected for its mesh, under the correction of that mesh. -/
def Pass.route (branchLocal ornamentLocal : Affine α) (pass : Pass α)
    (placement : Placement α) : Pass α :=
  match placement.mesh with
  | .branch => { pass with branches := pass.branches.push (instanceMatrix branchLocal placement) }
  | .ornament =>
    { pass with ornaments := pass.ornaments.push (instanceMatrix ornamentLocal placement) }

def build (placements : List (Placement α)) (branch ornament : MeshFrame α) : Batches α :=
  let branchLocal := branch.localTransform
  let ornamentLocal := ornament.localTransform
  let pass := placements.foldl (Pass.route branchLocal ornamentLocal) ⟨#[], #[]⟩
  { branches := pass.branches.toList, ornaments := pass.ornaments.toList }

end Build

/-! ## Drawing -/

/-- Has a renderer draw every batch that is not empty. -/
def submit {σ : Type} (draw : σ → Draw α → σ) (batches : Batches α) (renderer : σ) : σ :=
  [Mesh.branch, Mesh.ornament].foldl
    (fun current mesh =>
      let batch := batches.get mesh
      if batch.isEmpty then current else draw current ⟨mesh, batch⟩)
    renderer

/-- The calls that a renderer gets. -/
def draws (batches : Batches α) : List (Draw α) := (batches.submit Array.push #[]).toList

end Batches

/-! ## Uploading -/

/-- The four bytes of a word, least significant first. -/
def littleEndian (bits : UInt32) : List UInt8 :=
  [bits.toUInt8, (bits >>> 8).toUInt8, (bits >>> 16).toUInt8, (bits >>> 24).toUInt8]

def matrixBytes (matrix : Matrix4 UInt32) : List UInt8 := matrix.toList.flatMap littleEndian

def patternBytes (patterns : List (Matrix4 UInt32)) : List UInt8 := patterns.flatMap matrixBytes

/-- The bit patterns of the entries. -/
def bitPatterns (batch : List (Matrix4 Float32)) : List (Matrix4 UInt32) :=
  batch.map (Matrix4.map Float32.toBits)

def bufferBytes (batch : List (Matrix4 Float32)) : List UInt8 := patternBytes (bitPatterns batch)

namespace Batches

def bitPatterns (batches : Batches Float32) : Batches UInt32 where
  branches := Scene.bitPatterns batches.branches
  ornaments := Scene.bitPatterns batches.ornaments

/-- The two buffers, that of the branches first. -/
def upload (patterns : Batches UInt32) : List UInt8 × List UInt8 :=
  (patternBytes patterns.branches, patternBytes patterns.ornaments)

end Batches

end PlantGrowth.Scene
