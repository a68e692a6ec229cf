import PlantGrowth.Proofs.Geometry.Action
import PlantGrowth.Proofs.Scene.Batch

/-!
# Corrections in mesh space

In exact arithmetic the matrix of an instance takes a point of its mesh through the frame of the mesh
first and then through the placement. A mesh that is modelled in the turtle's own frame needs no
correction: its instances have the matrices of their placements.
-/

namespace PlantGrowth.Scene

variable {α : Type} [CommRing α]

theorem MeshFrame.point_localTransform (frame : MeshFrame α) (point : Vector3 α) :
    frame.localTransform.point point =
      frame.rotation.turned (point.scale frame.scale) + frame.offset :=
  Affine.point_similarity_turned _ _ _ _

theorem Placement.point_transform (placement : Placement α) (point : Vector3 α) :
    placement.transform.point point =
      placement.rotation.turned (point.scale placement.scale) + placement.position :=
  Affine.point_similarity_turned _ _ _ _

namespace Batches

theorem instanceMatrix_maps (correction : Affine α) (placement : Placement α) (point : Vector3 α) :
    (instanceMatrix correction placement).Maps point
      (placement.transform.point (correction.point point)) := by
  rw [← Affine.point_compose]
  exact Affine.matrix_maps _ point

theorem instanceMatrix_aligned (placement : Placement α) :
    instanceMatrix MeshFrame.aligned.localTransform placement = placement.matrix := by
  have haligned : (MeshFrame.aligned : MeshFrame α).localTransform =
      Affine.similarity 1 Quaternion.identity Vector3.zero := rfl
  rw [instanceMatrix, haligned, Affine.compose_similarity_one, Placement.matrix]

/-- The matrices of a batch belong to the placements of its mesh, one after another. Each takes a
point to its image under the frame of the mesh and then under the placement, and both scale, rotate
and shift in this order. In the turtle's own frame it is the matrix of the placement and takes the
axis of the mesh to the tip. -/
theorem corrections_act_in_mesh_space (placements : List (Placement α))
    (branch ornament : MeshFrame α) (mesh : Mesh) :
    let batch := (build placements branch ornament).get mesh
    let frame := frameOf branch ornament mesh
    batch.length = (ofMesh mesh placements).length ∧
    ∀ (index : ℕ) (matrix : Matrix4 α), batch[index]? = some matrix →
      ∃ placement, (ofMesh mesh placements)[index]? = some placement ∧
        (∀ point,
          matrix.Maps point (placement.transform.point (frame.localTransform.point point))) ∧
        (∀ point, frame.localTransform.point point =
          frame.rotation.turned (point.scale frame.scale) + frame.offset) ∧
        (∀ point, placement.transform.point point =
          placement.rotation.turned (point.scale placement.scale) + placement.position) ∧
        (frame = .aligned →
          matrix = placement.matrix ∧ matrix.Maps Vector3.unitZ placement.tip) := by
  intro batch frame
  have hbatch : batch = (ofMesh mesh placements).map (instanceMatrix frame.localTransform) :=
    get_build branch ornament placements mesh
  rw [hbatch]
  refine ⟨List.length_map _, ?_⟩
  intro index matrix hmatrix
  rw [List.getElem?_map, Option.map_eq_some_iff] at hmatrix
  obtain ⟨placement, hplacement, rfl⟩ := hmatrix
  refine ⟨placement, hplacement, instanceMatrix_maps _ placement, frame.point_localTransform,
    placement.point_transform, ?_⟩
  intro haligned
  rw [haligned, instanceMatrix_aligned]
  exact ⟨rfl, Affine.matrix_maps placement.transform Vector3.unitZ⟩

/-- A stem under the turtle's own frame and the last flower under a frame that turns, doubles and
lifts it. -/
theorem corrections_act_in_mesh_space_bouquet :
    (∃ matrix, (build bouquet .aligned ⟨⟨0, 0, 1⟩, ⟨1, 0, 0, 0⟩, 2⟩).branches[0]? = some matrix ∧
      matrix.Maps Vector3.unitZ ⟨0, 0, -3⟩) ∧
    ∃ matrix, (build bouquet .aligned ⟨⟨0, 0, 1⟩, ⟨1, 0, 0, 0⟩, 2⟩).ornaments[1]? = some matrix ∧
      matrix.Maps ⟨1, 1, 1⟩ ⟨2, -1, -1⟩ := by
  obtain ⟨-, hbranches⟩ := corrections_act_in_mesh_space bouquet .aligned
    ⟨⟨0, 0, 1⟩, ⟨1, 0, 0, 0⟩, 2⟩ .branch
  obtain ⟨-, hornaments⟩ := corrections_act_in_mesh_space bouquet .aligned
    ⟨⟨0, 0, 1⟩, ⟨1, 0, 0, 0⟩, 2⟩ .ornament
  obtain ⟨stem, hstem, -, -, -, haligned⟩ := hbranches 0 _ rfl
  obtain ⟨flower, hflower, hmaps, -⟩ := hornaments 1 _ rfl
  cases hstem
  cases hflower
  exact ⟨⟨_, rfl, (haligned rfl).2⟩, ⟨_, rfl, hmaps ⟨1, 1, 1⟩⟩⟩

end Batches

end PlantGrowth.Scene
