import PlantGrowth.Proofs.Geometry.Rotation

/-!
# Maps acting on points

Over a commutative ring a composition of affine maps is one map after the other, and the matrix of a
map takes points, as columns that end in one, to their images. A similarity scales, then rotates, then
shifts. Its rotation is a sum of cross products with the vector part of the quaternion, whatever the
length of the quaternion.
-/

namespace PlantGrowth

variable {α : Type}

namespace Quaternion

/-- The rotation of a vector, in terms of cross products. -/
def turned [Add α] [Sub α] [Mul α] [OfNat α 2] (q : Quaternion α) (vector : Vector3 α) :
    Vector3 α :=
  let axis := q.vectorPart
  vector + ((axis.cross vector).scale q.w + axis.cross (axis.cross vector)).scale 2

variable [CommRing α]

theorem direction_rigid (q : Quaternion α) (shift vector : Vector3 α) :
    (Affine.rigid q shift).direction vector = q.turned vector := by
  apply Vector3.eq_of_coordinates
  all_goals
    simp only [turned, vectorPart, Affine.rigid, Affine.direction, Vector3.add_eq, Vector3.scale,
      Vector3.cross]
    ring

end Quaternion

/-! ## Matrices -/

namespace Matrix4

/-- The image of a column. -/
def apply [Add α] [Mul α] (matrix : Matrix4 α) (column : Column α) : Column α where
  x := matrix.first.x * column.x + matrix.second.x * column.y + matrix.third.x * column.z +
    matrix.fourth.x * column.w
  y := matrix.first.y * column.x + matrix.second.y * column.y + matrix.third.y * column.z +
    matrix.fourth.y * column.w
  z := matrix.first.z * column.x + matrix.second.z * column.y + matrix.third.z * column.z +
    matrix.fourth.z * column.w
  w := matrix.first.w * column.x + matrix.second.w * column.y + matrix.third.w * column.z +
    matrix.fourth.w * column.w

/-- Points are columns that end in one. -/
def Maps [Add α] [Mul α] [OfNat α 1] (matrix : Matrix4 α) (point image : Vector3 α) : Prop :=
  matrix.apply (.ofVector point 1) = .ofVector image 1

end Matrix4

/-! ## Affine maps -/

namespace Affine

variable [CommRing α]

theorem matrix_maps (map : Affine α) (point : Vector3 α) :
    map.matrix.Maps point (map.point point) := by
  simp only [Matrix4.Maps, Matrix4.apply, matrix, Column.ofVector, Affine.point, direction,
    Vector3.add_eq, Vector3.scale, Column.mk.injEq]
  refine ⟨?_, ?_, ?_, ?_⟩ <;> ring

theorem point_compose (outer inner : Affine α) (vector : Vector3 α) :
    (outer.compose inner).point vector = outer.point (inner.point vector) := by
  apply Vector3.eq_of_coordinates
  all_goals
    simp only [compose, point, direction, Vector3.add_eq, Vector3.scale]
    ring

theorem point_similarity_turned (scale : α) (q : Quaternion α) (shift vector : Vector3 α) :
    (similarity scale q shift).point vector = q.turned (vector.scale scale) + shift := by
  have hscale : (rigid q shift).direction (vector.scale scale) =
      ((rigid q shift).direction vector).scale scale := by
    apply Vector3.eq_of_coordinates
    all_goals
      simp only [direction, Vector3.add_eq, Vector3.scale]
      ring
  calc
    _ = (similarity scale q shift).direction vector + shift := rfl
    _ = (rigid q shift).direction (vector.scale scale) + shift := by
      rw [direction_similarity, hscale]
    _ = _ := by rw [Quaternion.direction_rigid]

theorem similarity_one :
    similarity (1 : α) Quaternion.identity Vector3.zero =
      ⟨Vector3.unitX, Vector3.unitY, Vector3.unitZ, Vector3.zero⟩ := by
  simp [similarity, rigid, Quaternion.identity, Vector3.scale, Vector3.unitX, Vector3.unitY,
    Vector3.unitZ]

/-- Nothing changes if nothing is scaled, rotated or shifted first. -/
theorem compose_similarity_one (outer : Affine α) :
    outer.compose (similarity 1 Quaternion.identity Vector3.zero) = outer := by
  rw [similarity_one]
  simp [compose, point, direction, Vector3.add_eq, Vector3.scale, Vector3.unitX, Vector3.unitY,
    Vector3.unitZ, Vector3.zero]

end Affine

end PlantGrowth
