import Mathlib.Data.Int.Notation
import Mathlib.Data.List.Basic
import PlantGrowth.Scene.Upload

/-!
# Every placement is drawn once

Every placement is of one of the two meshes, so the placements of the one and those of the other are
all placements, each once. The pass over the placements keeps each mesh apart: what it has collected for a mesh are the matrices
of the placements of that mesh that it has passed, in their order and under the correction of that
mesh alone. Whatever the renderer, it is given the batches that are not empty, each in one call, so
every placement is drawn exactly once and as the mesh that it is.
-/

namespace PlantGrowth.Scene

variable {α : Type}

/-! ## Placements by mesh -/

theorem count_append (mesh : Mesh) (first second : List (Placement α)) :
    count mesh (first ++ second) = count mesh first + count mesh second :=
  List.countP_append

theorem length_ofMesh (mesh : Mesh) (placements : List (Placement α)) :
    (ofMesh mesh placements).length = count mesh placements :=
  List.countP_eq_length_filter.symm

theorem ofMesh_append (mesh : Mesh) (first second : List (Placement α)) :
    ofMesh mesh (first ++ second) = ofMesh mesh first ++ ofMesh mesh second :=
  List.filter_append first second

theorem ofMesh_perm (placements : List (Placement α)) :
    (ofMesh .branch placements ++ ofMesh .ornament placements).Perm placements := by
  have hother : (fun placement : Placement α ↦ placement.mesh == .ornament) =
      fun placement ↦ !(placement.mesh == .branch) := by
    funext placement
    cases placement.mesh <;> rfl
  rw [ofMesh, ofMesh, hother]
  exact List.filter_append_perm _ placements

theorem length_eq_count_add_count (placements : List (Placement α)) :
    placements.length = count .branch placements + count .ornament placements := by
  rw [← (ofMesh_perm placements).length_eq, List.length_append, length_ofMesh, length_ofMesh]

namespace Batches

/-! ## Collecting -/

section Build

variable [Add α] [Sub α] [Mul α] [OfNat α 0] [OfNat α 1]

def Pass.collected (pass : Pass α) : Mesh → List (Matrix4 α)
  | .branch => pass.branches.toList
  | .ornament => pass.ornaments.toList

variable (branch ornament : MeshFrame α)

/-- The frame that a mesh is modelled in. -/
def frameOf : Mesh → MeshFrame α
  | .branch => branch
  | .ornament => ornament

theorem collected_route (pass : Pass α) (placement : Placement α) (mesh : Mesh) :
    (pass.route branch.localTransform ornament.localTransform placement).collected mesh =
      pass.collected mesh ++
        (ofMesh mesh [placement]).map
          (instanceMatrix (frameOf branch ornament mesh).localTransform) := by
  rcases placement with ⟨own, position, rotation, scale⟩
  cases own <;> cases mesh <;> simp [Pass.route, Pass.collected, ofMesh, frameOf]

/-- What was collected before stays in front of what the rest of the pass adds. -/
theorem collected_foldl_route (pass : Pass α) (placements : List (Placement α)) (mesh : Mesh) :
    (placements.foldl (Pass.route branch.localTransform ornament.localTransform) pass).collected
        mesh =
      pass.collected mesh ++
        (ofMesh mesh placements).map
          (instanceMatrix (frameOf branch ornament mesh).localTransform) := by
  induction placements generalizing pass with
  | nil => exact (List.append_nil _).symm
  | cons placement rest ih =>
    have hsplit : ofMesh mesh (placement :: rest) = ofMesh mesh [placement] ++ ofMesh mesh rest :=
      ofMesh_append mesh [placement] rest
    rw [List.foldl_cons, ih, collected_route, hsplit, List.map_append, List.append_assoc]

theorem get_build (placements : List (Placement α)) (mesh : Mesh) :
    (build placements branch ornament).get mesh =
      (ofMesh mesh placements).map
        (instanceMatrix (frameOf branch ornament mesh).localTransform) := by
  have hcollected := collected_foldl_route branch ornament ⟨#[], #[]⟩ placements mesh
  cases mesh <;> exact hcollected

theorem length_get_build (placements : List (Placement α)) (mesh : Mesh) :
    ((build placements branch ornament).get mesh).length = count mesh placements := by
  rw [get_build, List.length_map, length_ofMesh]

theorem get_build_append (first second : List (Placement α)) (mesh : Mesh) :
    (build (first ++ second) branch ornament).get mesh =
      (build first branch ornament).get mesh ++ (build second branch ornament).get mesh := by
  rw [get_build, get_build, get_build, ofMesh_append, List.map_append]

end Build

/-! ## Drawing -/

/-- The calls, as they are listed for the meshes with a batch. -/
theorem draws_eq (batches : Batches α) :
    batches.draws =
      ([Mesh.branch, .ornament].filter fun mesh ↦ !(batches.get mesh).isEmpty).map
        fun mesh ↦ ⟨mesh, batches.get mesh⟩ := by
  rcases batches with ⟨_ | _, _ | _⟩ <;> rfl

/-- A renderer sees nothing but the calls. -/
theorem submit_eq_foldl_draws {σ : Type} (draw : σ → Draw α → σ) (batches : Batches α)
    (renderer : σ) : batches.submit draw renderer = batches.draws.foldl draw renderer := by
  rcases batches with ⟨_ | _, _ | _⟩ <;> rfl

theorem map_mesh_draws (batches : Batches α) :
    batches.draws.map Draw.mesh =
      [Mesh.branch, .ornament].filter fun mesh ↦ !(batches.get mesh).isEmpty := by
  rw [draws_eq, List.map_map]
  exact List.map_id _

theorem of_mem_draws {batches : Batches α} {call : Draw α} (hcall : call ∈ batches.draws) :
    call.instances ≠ [] ∧ call.instances = batches.get call.mesh := by
  rw [draws_eq, List.mem_map] at hcall
  obtain ⟨mesh, hmesh, rfl⟩ := hcall
  have hnonempty := (List.mem_filter.1 hmesh).2
  exact ⟨by simpa using hnonempty, rfl⟩

/-- Everything that is drawn, each matrix with the mesh that it is drawn for. -/
def drawn (batches : Batches α) : List (Mesh × Matrix4 α) :=
  batches.draws.flatMap fun call ↦ call.instances.map fun matrix ↦ (call.mesh, matrix)

theorem drawn_eq (batches : Batches α) :
    batches.drawn =
      (batches.get .branch).map (Prod.mk .branch) ++
        (batches.get .ornament).map (Prod.mk .ornament) := by
  rw [drawn, draws_eq]
  rcases batches with ⟨_ | _, _ | _⟩ <;> simp [get]

/-! ## Placements and calls -/

section Placed

variable [Add α] [Sub α] [Mul α] [OfNat α 0] [OfNat α 1]

/-- The mesh of a placement with its matrix under the frame of that mesh. -/
def ownInstance (branch ornament : MeshFrame α) (placement : Placement α) : Mesh × Matrix4 α :=
  (placement.mesh,
    instanceMatrix (frameOf branch ornament placement.mesh).localTransform placement)

theorem drawn_build_perm (placements : List (Placement α)) (branch ornament : MeshFrame α) :
    (build placements branch ornament).drawn.Perm
      (placements.map (ownInstance branch ornament)) := by
  have hown (mesh : Mesh) :
      ((build placements branch ornament).get mesh).map (Prod.mk mesh) =
        (ofMesh mesh placements).map (ownInstance branch ornament) := by
    rw [get_build, List.map_map]
    apply List.map_congr_left
    intro placement hplacement
    have hmesh : placement.mesh = mesh := by simpa using (List.mem_filter.1 hplacement).2
    rw [ownInstance, hmesh]
    rfl
  rw [drawn_eq, hown, hown, ← List.map_append]
  exact (ofMesh_perm placements).map _

/-- Each batch has one matrix for every placement of its mesh, in the order of placement, and none of
its matrices depends on the frame of the other mesh. Batches of consecutive placements can be joined.
What a renderer is given are the batches that are not empty, one call each and branches first, and in
these calls every placement is drawn once. -/
theorem every_placement_is_drawn_once :
    (∀ (placements : List (Placement α)) (branch ornament : MeshFrame α),
      (build placements branch ornament).branches =
        (ofMesh .branch placements).map (fun placement ↦
          (placement.transform.compose branch.localTransform).matrix) ∧
      (build placements branch ornament).ornaments =
        (ofMesh .ornament placements).map (fun placement ↦
          (placement.transform.compose ornament.localTransform).matrix) ∧
      (build placements branch ornament).branches.length = count .branch placements ∧
      (build placements branch ornament).ornaments.length = count .ornament placements ∧
      (build placements branch ornament).branches.length +
        (build placements branch ornament).ornaments.length = placements.length ∧
      (∀ later mesh, (build (placements ++ later) branch ornament).get mesh =
        (build placements branch ornament).get mesh ++ (build later branch ornament).get mesh) ∧
      (∀ other, (build placements branch other).branches =
          (build placements branch ornament).branches ∧
        (build placements other ornament).ornaments =
          (build placements branch ornament).ornaments) ∧
      (build placements branch ornament).drawn.Perm
        (placements.map (ownInstance branch ornament))) ∧
    ∀ batches : Batches α,
      (∀ (σ : Type) (draw : σ → Draw α → σ) (renderer : σ),
        batches.submit draw renderer = batches.draws.foldl draw renderer) ∧
      batches.draws.map Draw.mesh =
        [Mesh.branch, .ornament].filter (fun mesh ↦ !(batches.get mesh).isEmpty) ∧
      (∀ call ∈ batches.draws, call.instances ≠ [] ∧ call.instances = batches.get call.mesh) ∧
      batches.draws.flatMap Draw.instances = batches.branches ++ batches.ornaments := by
  constructor
  · intro placements branch ornament
    have hbranches (other : MeshFrame α) := get_build branch other placements .branch
    have hornaments (other : MeshFrame α) := get_build other ornament placements .ornament
    have hbranchCount := length_get_build branch ornament placements .branch
    have hornamentCount := length_get_build branch ornament placements .ornament
    refine ⟨hbranches ornament, hornaments branch, hbranchCount, hornamentCount, ?_,
      get_build_append branch ornament placements, ?_, drawn_build_perm placements branch ornament⟩
    · rw [length_eq_count_add_count placements, ← hbranchCount, ← hornamentCount]
      rfl
    · intro other
      exact ⟨(hbranches other).trans (hbranches ornament).symm,
        (hornaments other).trans (hornaments branch).symm⟩
  · intro batches
    refine ⟨fun σ draw ↦ submit_eq_foldl_draws draw batches, map_mesh_draws batches,
      fun call ↦ of_mem_draws, ?_⟩
    have hinstances : batches.draws.flatMap Draw.instances = batches.drawn.map Prod.snd := by
      simp [drawn, List.map_flatMap, Function.comp_def]
    rw [hinstances, drawn_eq]
    simp [get, Function.comp_def]

end Placed

/-- A stem between two flowers. -/
def bouquet : List (Placement ℤ) :=
  [⟨.ornament, ⟨0, 0, 1⟩, Quaternion.identity, 2⟩, ⟨.branch, ⟨0, 0, 0⟩, ⟨0, 1, 0, 0⟩, 3⟩,
    ⟨.ornament, ⟨0, 1, 0⟩, Quaternion.identity, 1⟩]

/-- Flowers ten times as large, drawn after the stem, and the last flower by itself. -/
theorem every_placement_is_drawn_once_bouquet :
    (build bouquet .aligned { MeshFrame.aligned with scale := 10 }).ornaments.length = 2 ∧
    (build bouquet .aligned { MeshFrame.aligned with scale := 10 }).submit
      (fun calls call ↦ calls ++ [(call.mesh, call.instances.length)]) [] =
        [(.branch, 1), (.ornament, 2)] ∧
    (∀ call ∈ (build bouquet .aligned .aligned).draws, call.instances ≠ []) ∧
    (build (bouquet.drop 2) .aligned .aligned).draws.map Draw.mesh = [.ornament] := by
  obtain ⟨hbuild, hdraws⟩ := @every_placement_is_drawn_once ℤ _ _ _ _ _
  obtain ⟨-, -, -, hornaments, -⟩ := hbuild bouquet .aligned { MeshFrame.aligned with scale := 10 }
  refine ⟨hornaments, ?_, fun call hcall ↦ ((hdraws _).2.2.1 call hcall).1, (hdraws _).2.1⟩
  rw [(hdraws _).1]
  rfl

end Batches

end PlantGrowth.Scene
