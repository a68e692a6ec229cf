import PlantGrowth.Geometry

/-!
# Placements and mesh frames

A placement is one oriented and uniformly scaled copy of one of the two source meshes. A branch
mesh spans its local origin to local `+Z`, so the scale of a branch is its length and the image of
`+Z` is its far end.

A mesh frame says how a source mesh is modelled relative to the turtle's frame. The correction acts
in mesh space, before a placement: scale, then rotate, then offset.
-/

namespace PlantGrowth.Scene

/-! ## Placements -/

inductive Mesh
  | branch
  | ornament
  deriving DecidableEq, Repr

structure Placement (α : Type) where
  mesh : Mesh
  position : Vector3 α
  rotation : Quaternion α
  scale : α
  deriving BEq, DecidableEq, Repr

namespace Placement

variable {α : Type} [Add α] [Sub α] [Mul α] [OfNat α 0] [OfNat α 1]

/-- The map from mesh space to the world. -/
def transform (placement : Placement α) : Affine α :=
  Affine.similarity placement.scale placement.rotation placement.position

def matrix (placement : Placement α) : Matrix4 α := placement.transform.matrix

def origin (placement : Placement α) : Vector3 α := placement.position

/-- The image of local `+Z`. -/
def tip (placement : Placement α) : Vector3 α := placement.transform.point Vector3.unitZ

end Placement

/-- The placements of one mesh, in order. -/
def ofMesh {α : Type} (mesh : Mesh) (placements : List (Placement α)) : List (Placement α) :=
  placements.filter fun placement => placement.mesh == mesh

def count {α : Type} (mesh : Mesh) (placements : List (Placement α)) : Nat :=
  placements.countP fun placement => placement.mesh == mesh

/-! ## Mesh frames -/

structure MeshFrame (α : Type) where
  offset : Vector3 α
  rotation : Quaternion α
  scale : α
  deriving BEq, DecidableEq, Repr

namespace MeshFrame

variable {α : Type}

/-- A mesh modelled in the turtle's own frame. -/
def aligned [OfNat α 0] [OfNat α 1] : MeshFrame α :=
  { offset := Vector3.zero, rotation := Quaternion.identity, scale := 1 }

def localTransform [Add α] [Sub α] [Mul α] [OfNat α 1] (frame : MeshFrame α) : Affine α :=
  Affine.similarity frame.scale frame.rotation frame.offset

def quarterTurn : Float32 := Float32.ofBits 0x3FC90FDB

/-- A mesh modelled along `+Y`, turned onto `+Z`. -/
def yUp : MeshFrame Float32 :=
  { aligned with rotation := Quaternion.ofAxisAngle Vector3.unitX quarterTurn }

end MeshFrame

end PlantGrowth.Scene
