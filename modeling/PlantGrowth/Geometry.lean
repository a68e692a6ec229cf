/-!
# Vectors, quaternions and affine maps

Every formula of the library is stated over a type with the operations that it needs, so the same
text is a 32-bit computation and a statement of exact arithmetic. The order of additions is fixed
where more than two terms meet.

Orientations are quaternions. Composition on the right acts in the rotated frame, and normalizing
after every composition keeps long chains of turns at unit length. An affine map is given by the
images of the three axes and a shift; its composition applies the right factor first, and as a matrix
of four columns it has the bottom row `0 0 0 1`.
-/

namespace PlantGrowth

/-! ## Elementary functions -/

/-- The functions that turns and lengths need beyond ring arithmetic. -/
class Elementary (α : Type) where
  sqrt : α → α
  sin : α → α
  cos : α → α
  abs : α → α
  half : α
  radiansPerDegree : α

instance : Elementary Float32 where
  sqrt := Float32.sqrt
  sin := Float32.sin
  cos := Float32.cos
  abs := Float32.abs
  half := Float32.ofBits 0x3F000000
  radiansPerDegree := Float32.ofBits 0x3C8EFA35

/-! ## Vectors -/

structure Vector3 (α : Type) where
  x : α
  y : α
  z : α
  deriving BEq, DecidableEq, Repr

namespace Vector3

variable {α : Type}

def zero [OfNat α 0] : Vector3 α := ⟨0, 0, 0⟩

def unitX [OfNat α 0] [OfNat α 1] : Vector3 α := ⟨1, 0, 0⟩

def unitY [OfNat α 0] [OfNat α 1] : Vector3 α := ⟨0, 1, 0⟩

def unitZ [OfNat α 0] [OfNat α 1] : Vector3 α := ⟨0, 0, 1⟩

def add [Add α] (first second : Vector3 α) : Vector3 α :=
  ⟨first.x + second.x, first.y + second.y, first.z + second.z⟩

instance [Add α] : Add (Vector3 α) := ⟨add⟩

/-- Every coordinate times the factor. -/
def scale [Mul α] (vector : Vector3 α) (factor : α) : Vector3 α :=
  ⟨vector.x * factor, vector.y * factor, vector.z * factor⟩

def dot [Add α] [Mul α] (first second : Vector3 α) : α :=
  (first.x * second.x + first.y * second.y) + first.z * second.z

def cross [Sub α] [Mul α] (first second : Vector3 α) : Vector3 α :=
  ⟨first.y * second.z - second.y * first.z,
   first.z * second.x - second.z * first.x,
   first.x * second.y - second.x * first.y⟩

def toList (vector : Vector3 α) : List α := [vector.x, vector.y, vector.z]

def all (test : α → Bool) (vector : Vector3 α) : Bool := vector.toList.all test

end Vector3

/-! ## Quaternions -/

structure Quaternion (α : Type) where
  x : α
  y : α
  z : α
  w : α
  deriving BEq, DecidableEq, Repr

namespace Quaternion

variable {α : Type}

def identity [OfNat α 0] [OfNat α 1] : Quaternion α := ⟨0, 0, 0, 1⟩

def toList (rotation : Quaternion α) : List α :=
  [rotation.x, rotation.y, rotation.z, rotation.w]

def vectorPart (rotation : Quaternion α) : Vector3 α := ⟨rotation.x, rotation.y, rotation.z⟩

def compose [Add α] [Sub α] [Mul α] [Neg α] (l r : Quaternion α) : Quaternion α where
  x := (l.w * r.x + l.x * r.w) + (l.y * r.z - l.z * r.y)
  y := (l.w * r.y - l.x * r.z) + (l.y * r.w + l.z * r.x)
  z := (l.w * r.z + l.x * r.y) + (-(l.y * r.x) + l.z * r.w)
  w := (l.w * r.w - l.x * r.x) + (-(l.y * r.y) - l.z * r.z)

def lengthSquared [Add α] [Mul α] (q : Quaternion α) : α :=
  (q.x * q.x + q.z * q.z) + (q.y * q.y + q.w * q.w)

def normalize [Add α] [Mul α] [Div α] [Elementary α] (q : Quaternion α) : Quaternion α :=
  let length := Elementary.sqrt q.lengthSquared
  ⟨q.x / length, q.y / length, q.z / length, q.w / length⟩

/-- The rotation about an axis of length one. -/
def ofAxisAngle [Mul α] [Elementary α] (axis : Vector3 α) (radians : α) : Quaternion α :=
  let halfAngle := radians * Elementary.half
  let sine := Elementary.sin halfAngle
  ⟨axis.x * sine, axis.y * sine, axis.z * sine, Elementary.cos halfAngle⟩

/-- The image of a vector under the rotation. -/
def rotate [Add α] [Sub α] [Mul α] [OfNat α 2] (q : Quaternion α) (vector : Vector3 α) :
    Vector3 α :=
  let axis := q.vectorPart
  vector.scale (q.w * q.w - axis.dot axis) + axis.scale (vector.dot axis * 2) +
    (axis.cross vector).scale (q.w * 2)

end Quaternion

/-! ## Affine maps and matrices -/

structure Affine (α : Type) where
  xAxis : Vector3 α
  yAxis : Vector3 α
  zAxis : Vector3 α
  shift : Vector3 α
  deriving BEq, DecidableEq, Repr

structure Column (α : Type) where
  x : α
  y : α
  z : α
  w : α
  deriving BEq, DecidableEq, Repr

/-- A four by four matrix by columns. -/
structure Matrix4 (α : Type) where
  first : Column α
  second : Column α
  third : Column α
  fourth : Column α
  deriving BEq, DecidableEq, Repr

namespace Column

def ofVector {α : Type} (vector : Vector3 α) (w : α) : Column α :=
  ⟨vector.x, vector.y, vector.z, w⟩

def toList {α : Type} (column : Column α) : List α := [column.x, column.y, column.z, column.w]

/-- Every entry changed. -/
def map {α β : Type} (change : α → β) (column : Column α) : Column β :=
  ⟨change column.x, change column.y, change column.z, change column.w⟩

end Column

namespace Matrix4

def columns {α : Type} (matrix : Matrix4 α) : List (Column α) :=
  [matrix.first, matrix.second, matrix.third, matrix.fourth]

/-- The sixteen entries, column after column. -/
def toList {α : Type} (matrix : Matrix4 α) : List α := matrix.columns.flatMap Column.toList

/-- Every entry changed. -/
def map {α β : Type} (change : α → β) (matrix : Matrix4 α) : Matrix4 β :=
  ⟨matrix.first.map change, matrix.second.map change, matrix.third.map change,
    matrix.fourth.map change⟩

end Matrix4

namespace Affine

variable {α : Type}

section Construction

variable [Add α] [Sub α] [Mul α] [OfNat α 1]

/-- Rotates, then shifts. -/
def rigid (q : Quaternion α) (shift : Vector3 α) : Affine α :=
  let x2 := q.x + q.x
  let y2 := q.y + q.y
  let z2 := q.z + q.z
  { xAxis := ⟨1 - (q.y * y2 + q.z * z2), q.x * y2 + q.w * z2, q.x * z2 - q.w * y2⟩
    yAxis := ⟨q.x * y2 - q.w * z2, 1 - (q.x * x2 + q.z * z2), q.y * z2 + q.w * x2⟩
    zAxis := ⟨q.x * z2 + q.w * y2, q.y * z2 - q.w * x2, 1 - (q.x * x2 + q.y * y2)⟩
    shift }

/-- Scales, then rotates, then shifts. -/
def similarity (scale : α) (q : Quaternion α) (shift : Vector3 α) : Affine α :=
  let frame := rigid q shift
  { xAxis := frame.xAxis.scale scale
    yAxis := frame.yAxis.scale scale
    zAxis := frame.zAxis.scale scale
    shift }

end Construction

section Action

variable [Add α] [Mul α]

/-- The image of a direction under the linear part. -/
def direction (map : Affine α) (vector : Vector3 α) : Vector3 α :=
  (map.xAxis.scale vector.x + map.yAxis.scale vector.y) + map.zAxis.scale vector.z

def point (map : Affine α) (vector : Vector3 α) : Vector3 α :=
  map.direction vector + map.shift

def compose (outer inner : Affine α) : Affine α where
  xAxis := outer.direction inner.xAxis
  yAxis := outer.direction inner.yAxis
  zAxis := outer.direction inner.zAxis
  shift := outer.point inner.shift

end Action

def matrix [OfNat α 0] [OfNat α 1] (map : Affine α) : Matrix4 α where
  first := Column.ofVector map.xAxis 0
  second := Column.ofVector map.yAxis 0
  third := Column.ofVector map.zAxis 0
  fourth := Column.ofVector map.shift 1

/-- The twelve entries above the bottom row, column after column. -/
def toList (map : Affine α) : List α :=
  map.xAxis.toList ++ map.yAxis.toList ++ map.zAxis.toList ++ map.shift.toList

end Affine

end PlantGrowth
