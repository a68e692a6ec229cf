import Mathlib.Analysis.Real.Sqrt
import Mathlib.Tactic.LinearCombination
import PlantGrowth.Geometry
import PlantGrowth.Turtle.State

/-!
# Rotations in exact arithmetic

Over a commutative ring the length of a composition is the product of the lengths, and the image of
a vector under a quaternion is its image under the matrix, but for a multiple of the vector that
vanishes at length one. So a quaternion of length one is an orthogonal map, both ways of applying it
agree, and over the reals normalizing its turns divides by one.
-/

namespace PlantGrowth

variable {α : Type}

/-! ## Vectors -/

namespace Vector3

theorem eq_of_coordinates {first second : Vector3 α} (hx : first.x = second.x)
    (hy : first.y = second.y) (hz : first.z = second.z) : first = second := by
  cases first
  cases second
  cases hx
  cases hy
  cases hz
  rfl

variable [CommRing α]

theorem add_eq (first second : Vector3 α) :
    first + second = ⟨first.x + second.x, first.y + second.y, first.z + second.z⟩ := rfl

theorem add_comm (first second : Vector3 α) : first + second = second + first := by
  apply eq_of_coordinates
  all_goals
    simp only [add_eq]
    ring

end Vector3

namespace Quaternion

section Ring

variable [CommRing α]

/-! ## Lengths -/

theorem lengthSquared_compose (l r : Quaternion α) :
    (l.compose r).lengthSquared = l.lengthSquared * r.lengthSquared := by
  simp only [compose, lengthSquared]
  ring

theorem lengthSquared_ofAxisAngle [Elementary α]
    (hcircle : ∀ radians : α, Elementary.sin radians ^ 2 + Elementary.cos radians ^ 2 = 1)
    {axis : Vector3 α} (haxis : axis.dot axis = 1) (radians : α) :
    (ofAxisAngle axis radians).lengthSquared = 1 := by
  have hpoint := hcircle (radians * Elementary.half)
  simp only [Vector3.dot] at haxis
  simp only [ofAxisAngle, lengthSquared]
  linear_combination hpoint + Elementary.sin (radians * Elementary.half) ^ 2 * haxis

/-! ## Images -/

/-- Whatever the length, all angles between vectors are kept. -/
theorem dot_rotate (q : Quaternion α) (first second : Vector3 α) :
    (q.rotate first).dot (q.rotate second) =
      q.lengthSquared * q.lengthSquared * first.dot second := by
  simp only [rotate, vectorPart, lengthSquared, Vector3.add_eq, Vector3.scale, Vector3.dot,
    Vector3.cross]
  ring

/-- The two ways of applying a quaternion differ by a multiple of the vector. -/
theorem rotate_eq_direction_add (q : Quaternion α) (shift vector : Vector3 α) :
    q.rotate vector =
      (Affine.rigid q shift).direction vector + vector.scale (q.lengthSquared - 1) := by
  apply Vector3.eq_of_coordinates
  all_goals
    simp only [rotate, vectorPart, lengthSquared, Affine.rigid, Affine.direction, Vector3.add_eq,
      Vector3.scale, Vector3.dot, Vector3.cross]
    ring

theorem rotate_eq_direction {q : Quaternion α} (hunit : q.lengthSquared = 1)
    (shift vector : Vector3 α) :
    q.rotate vector = (Affine.rigid q shift).direction vector := by
  rw [rotate_eq_direction_add q shift, hunit]
  simp [Vector3.add_eq, Vector3.scale]

end Ring

end Quaternion

namespace Affine

variable [CommRing α]

theorem direction_similarity (scale : α) (q : Quaternion α) (shift vector : Vector3 α) :
    (similarity scale q shift).direction vector =
      ((rigid q shift).direction vector).scale scale := by
  apply Vector3.eq_of_coordinates
  all_goals
    simp only [similarity, rigid, direction, Vector3.add_eq, Vector3.scale]
    ring

/-- A point of a scaled frame lies as far along the rotated vector as the scale says. -/
theorem point_similarity {q : Quaternion α} (hunit : q.lengthSquared = 1) (scale : α)
    (shift vector : Vector3 α) :
    (similarity scale q shift).point vector = shift + (q.rotate vector).scale scale := by
  calc
    _ = (similarity scale q shift).direction vector + shift := rfl
    _ = ((rigid q shift).direction vector).scale scale + shift := by rw [direction_similarity]
    _ = (q.rotate vector).scale scale + shift := by rw [Quaternion.rotate_eq_direction hunit shift]
    _ = _ := Vector3.add_comm _ _

end Affine

/-! ## Real arithmetic -/

/-- The square root is that of the real numbers, and sine and cosine are coordinates of points of the
unit circle. -/
structure Elementary.Exact [Elementary ℝ] : Prop where
  sqrt_eq : ∀ number : ℝ, Elementary.sqrt number = √number
  circle : ∀ radians : ℝ, Elementary.sin radians ^ 2 + Elementary.cos radians ^ 2 = 1

namespace Quaternion

/-- What normalizing divides by. -/
def length [Add α] [Mul α] [Elementary α] (q : Quaternion α) : α := Elementary.sqrt q.lengthSquared

variable [Elementary ℝ] {q : Quaternion ℝ}

theorem length_eq_one_iff (hexact : Elementary.Exact) : q.length = 1 ↔ q.lengthSquared = 1 := by
  rw [length, hexact.sqrt_eq, Real.sqrt_eq_one]

theorem normalize_of_unit (hexact : Elementary.Exact) (hunit : q.lengthSquared = 1) :
    q.normalize = q := by
  have hlength : Elementary.sqrt q.lengthSquared = 1 := (length_eq_one_iff hexact).2 hunit
  simp only [normalize, hlength, div_one]

end Quaternion

end PlantGrowth
