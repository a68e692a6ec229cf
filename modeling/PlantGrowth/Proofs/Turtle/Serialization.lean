import PlantGrowth.Proofs.Toml.Record
import PlantGrowth.Proofs.Turtle.Convention
import PlantGrowth.Proofs.Turtle.Encoding

/-!
# Values that survive serialization

Every value of a scene or of a turtle is decoded from its encoding, and its shape is fixed: records
need all their fields and variants one of their names. A record may have other entries, except for
the content of a turn.
-/

namespace PlantGrowth

open Toml Value

/-! ## Numbers -/

section Numbers

variable {α : Type}

def Scene.MeshFrame.numbers (frame : MeshFrame α) : List α :=
  frame.offset.toList ++ frame.rotation.toList ++ [frame.scale]

def Scene.Placement.numbers (placement : Placement α) : List α :=
  placement.position.toList ++ placement.rotation.toList ++ [placement.scale]

def Turtle.State.numbers (state : State α) : List α :=
  state.position.toList ++ state.rotation.toList ++ [state.stepLength, state.spread, state.scale]

variable [BEq α]

theorem Vector3.beq_self_eq (vector : Vector3 α) :
    (vector == vector) = vector.toList.all fun number ↦ number == number := by
  have hparts : (vector == vector) =
      (vector.x == vector.x && (vector.y == vector.y && vector.z == vector.z)) := rfl
  simp [hparts, toList]

theorem Quaternion.beq_self_eq (rotation : Quaternion α) :
    (rotation == rotation) = rotation.toList.all fun number ↦ number == number := by
  have hparts : (rotation == rotation) = (rotation.x == rotation.x && (rotation.y == rotation.y &&
      (rotation.z == rotation.z && rotation.w == rotation.w))) := rfl
  simp [hparts, toList]

theorem Scene.MeshFrame.beq_self_eq (frame : MeshFrame α) :
    (frame == frame) = frame.numbers.all fun number ↦ number == number := by
  have hparts : (frame == frame) = (frame.offset == frame.offset &&
      (frame.rotation == frame.rotation && frame.scale == frame.scale)) := rfl
  simp [hparts, numbers, Vector3.beq_self_eq, Quaternion.beq_self_eq]

theorem Scene.Placement.beq_self_eq (placement : Placement α) :
    (placement == placement) = placement.numbers.all fun number ↦ number == number := by
  have hparts : (placement == placement) = (placement.mesh == placement.mesh &&
      (placement.position == placement.position && (placement.rotation == placement.rotation &&
        placement.scale == placement.scale))) := rfl
  simp [hparts, numbers, Vector3.beq_self_eq, Quaternion.beq_self_eq]

theorem Scene.beq_placements_self_eq (placements : List (Placement α)) :
    (placements == placements) =
      (placements.flatMap Placement.numbers).all fun number ↦ number == number := by
  induction placements with
  | nil => rfl
  | cons placement rest ih =>
    rw [List.cons_beq_cons, ih, Placement.beq_self_eq, List.flatMap_cons, List.all_append]

theorem Turtle.State.beq_self_eq (state : State α) :
    (state == state) = state.numbers.all fun number ↦ number == number := by
  have hparts : (state == state) = (state.position == state.position &&
      (state.rotation == state.rotation && (state.stepLength == state.stepLength &&
        (state.spread == state.spread && state.scale == state.scale)))) := rfl
  simp [hparts, numbers, Vector3.beq_self_eq, Quaternion.beq_self_eq]

end Numbers

/-! ## Records -/

theorem Scene.openRecord_placement :
    OpenRecord ["mesh", "translation", "rotation", "scale"] Placement.decode? :=
  openRecord_of_fields? ["mesh", "translation", "rotation", "scale"] _

/-- A placement in a list is as open as a placement of its own. -/
theorem Scene.openRecord_element (before after : List Value) :
    OpenRecord ["mesh", "translation", "rotation", "scale"] fun element ↦
      decodePlacements? (.record [("placements", .array (before ++ element :: after))]) := by
  have helements (elements : List Value) :
      decodePlacements? (.record [("placements", .array elements)]) =
        elements.mapM Placement.decode? := by
    simp [decodePlacements?, record, fields?]
  simp only [helements]
  exact openRecord_placement.element before after

/-- The content of a turn has its two fields only. -/
theorem Turtle.Op.closedRecord_turn :
    ClosedRecord ["axis", "degrees"] fun carried ↦ Op.decode? (.record [("turn", carried)]) := by
  have hturn (carried : Value) : Op.decode? (.record [("turn", carried)]) = decodeTurn? carried := by
    have hvariant : (record [("turn", carried)]).variant? = some ("turn".toList, some carried) := rfl
    simp only [decode?, hvariant, Option.bind_eq_bind, Option.bind_some]
    simp [plain, name]
  simp only [hturn]
  exact closedRecord_of_exactFields? ["axis", "degrees"] _

/-! ## Variants -/

theorem Turtle.Op.encode_variant? (op : Op Float32) :
    ∃ carried, op.encode.variant? = some (op.name.toList, carried) := by
  cases hcarried : op.carried? with
  | none => exact ⟨none, by rw [encode, hcarried, variant?]⟩
  | some carried => exact ⟨some carried, by rw [encode, hcarried]; rfl⟩

def Turtle.Op.names : List String :=
  ["draw", "move", "ornament", "yaw", "pitch", "roll", "turn", "shrink", "set_spread", "set_step",
    "push", "pop", "ignore"]

theorem Turtle.Op.name_mem_names {α : Type} (op : Op α) : op.name ∈ names := by
  cases op <;> simp [name, names]

theorem Turtle.Op.variants : Variants names Op.encode Op.decode? where
  refuses := by
    intro value
    refine variant?_bind_eq_none ?_
    intro word carried hother
    have hplain : (plain.find? fun op ↦ op.name.toList == word) = none :=
      find?_eq_none_of_name (fun op _ ↦ List.mem_map_of_mem op.name_mem_names) hother
    have hnumeric : (numeric.find? fun make ↦ (make 0).name.toList == word) = none :=
      find?_eq_none_of_name (fun make _ ↦ List.mem_map_of_mem (make 0).name_mem_names) hother
    have hturn : (word == "turn".toList) = false := by
      rw [beq_eq_false_iff_ne]
      rintro rfl
      exact hother (List.mem_map_of_mem (Op.turn Axis.up (0 : Float32)).name_mem_names)
    simp only [hplain, hnumeric, hturn]
    cases carried <;> rfl
  encoded := by
    intro op
    exact ⟨op.name, op.name_mem_names, op.encode_variant?⟩
  named := by
    have hnamed (op : Op Float32) : ∃ content carried,
        (encode content).variant? = some (op.name.toList, carried) :=
      ⟨op, op.encode_variant?⟩
    simp only [names, List.forall_mem_cons]
    exact ⟨hnamed .draw, hnamed .move, hnamed .ornament, hnamed (.yaw 0), hnamed (.pitch 0),
      hnamed (.roll 0), hnamed (.turn .up 0), hnamed .shrink, hnamed (.setSpread 0),
      hnamed (.setStep 0), hnamed .push, hnamed .pop, hnamed .ignore, List.forall_mem_nil _⟩

theorem Turtle.Axis.variants : Variants ["up", "right", "heading"] Axis.encode Axis.decode? :=
  variants_of_names rfl fun axis ↦ by cases axis <;> simp

theorem Scene.Mesh.variants : Variants ["branch", "ornament"] Mesh.encode Mesh.decode? :=
  variants_of_names rfl fun mesh ↦ by cases mesh <;> simp

/-! ## All values -/

open Turtle Scene

/-- Operations, axes, meshes, frames, states, placements and lists of placements are decoded from
their encodings, and different ones have different encodings. Frames, states, lists of placements and
placements, on their own or in a list, need all their fields and ignore other entries. A turn needs
its two fields and refuses other entries. Operations, axes and meshes have no further names. -/
theorem serialized_values_are_read_back :
    (Faithful Op.encode Op.decode? Op.numbers ∧
      Faithful Axis.encode Axis.decode? (fun _ ↦ []) ∧
      Faithful Mesh.encode Mesh.decode? (fun _ ↦ []) ∧
      Faithful MeshFrame.encode MeshFrame.decode? MeshFrame.numbers ∧
      Faithful State.encode State.decode? State.numbers ∧
      Faithful Placement.encode Placement.decode? Placement.numbers ∧
      Faithful encodePlacements decodePlacements?
        (fun placements ↦ placements.flatMap Placement.numbers)) ∧
    (OpenRecord ["offset", "rotation", "scale"] MeshFrame.decode? ∧
      OpenRecord ["position", "rotation", "step_length", "spread", "scale"] State.decode? ∧
      OpenRecord ["mesh", "translation", "rotation", "scale"] Placement.decode? ∧
      OpenRecord ["placements"] decodePlacements? ∧
      ∀ before after : List Value,
        OpenRecord ["mesh", "translation", "rotation", "scale"] fun element ↦
          decodePlacements? (.record [("placements", .array (before ++ element :: after))])) ∧
    (ClosedRecord ["axis", "degrees"] fun carried ↦ Op.decode? (.record [("turn", carried)])) ∧
    Variants ["draw", "move", "ornament", "yaw", "pitch", "roll", "turn", "shrink", "set_spread",
      "set_step", "push", "pop", "ignore"] Op.encode Op.decode? ∧
    Variants ["up", "right", "heading"] Axis.encode Axis.decode? ∧
    Variants ["branch", "ornament"] Mesh.encode Mesh.decode? := by
  refine ⟨?faithful, ?records, Op.closedRecord_turn, Op.variants, Axis.variants, Mesh.variants⟩
  case faithful =>
    exact ⟨faithful_of_decodes Op.decodes Op.beq_self_eq,
      faithful_of_decodes Axis.decodes fun axis ↦ by simp,
      faithful_of_decodes Mesh.decodes fun mesh ↦ by simp,
      faithful_of_decodes MeshFrame.decodes MeshFrame.beq_self_eq,
      faithful_of_decodes State.decodes State.beq_self_eq,
      faithful_of_decodes Placement.decodes Placement.beq_self_eq,
      faithful_of_decodes decodes_placements beq_placements_self_eq⟩
  case records =>
    exact ⟨openRecord_of_fields? ["offset", "rotation", "scale"] _,
      openRecord_of_fields? ["position", "rotation", "step_length", "spread", "scale"] _,
      openRecord_placement, openRecord_of_fields? ["placements"] _, openRecord_element⟩

/-- A frame with a remark, a placement of three fields in a list, the name of an operation with a
capital letter and two lengths that differ. -/
theorem serialized_values_are_read_back_samples :
    MeshFrame.decode? (.record [("remark", .boolean true), ("offset", Vector3.zero.encode),
      ("rotation", Quaternion.identity.encode), ("scale", .ofFloat32 1)]) = some .aligned ∧
    decodePlacements? (.record [("placements", .array [.record [("mesh", Mesh.branch.encode),
      ("translation", Vector3.zero.encode), ("rotation", Quaternion.identity.encode)]])]) = none ∧
    Op.decode? (.string "Draw".toList) = none ∧
    ¬(Op.setStep 1).encode.Same (Op.setStep 2).encode := by
  obtain ⟨⟨hop, -, -, hframe, -⟩, ⟨hopen, -, -, -, helement⟩, -, hnames, -⟩ :=
    serialized_values_are_read_back
  refine ⟨?remark, ?missing, ?unknown, ?differ⟩
  case remark =>
    have hremark : "remark".toList ∉ ["offset", "rotation", "scale"].map String.toList := by simp
    exact (hopen.insert hremark (.boolean true) [] _).trans (hframe.decodes .aligned _ (.refl _))
  case missing =>
    have hscale : "scale" ∈ ["mesh", "translation", "rotation", "scale"] := by simp
    exact (helement [] []).needs _ (.table hscale (by simp))
  case unknown =>
    apply hnames.refuses
    rintro name carried hvariant
    cases hvariant
    simp
  case differ =>
    exact hop.not_same (.setStep 1) (.setStep 2) (by decide) (by decide) (by decide)

/-- A turn by a right angle is read without another entry, and refused with one. -/
theorem turn_with_remark_is_refused :
    Op.decode? (.record [("turn", .record [("axis", Axis.up.encode),
      ("degrees", .ofFloat32 90)])]) = some (.turn .up 90) ∧
    Op.decode? (.record [("turn", .record [("axis", Axis.up.encode), ("degrees", .ofFloat32 90),
      ("extra", .integer 1)])]) = none ∧
    ¬OpenRecord ["axis", "degrees"] fun carried ↦ Op.decode? (.record [("turn", carried)]) := by
  have hread : Op.decode? (.record [("turn", .record [("axis", Axis.up.encode),
      ("degrees", .ofFloat32 90)])]) = some (.turn .up 90) :=
    Op.decodes (.turn .up 90) (.refl _)
  have hrefused : Op.decode? (.record [("turn", .record [("axis", Axis.up.encode),
      ("degrees", .ofFloat32 90), ("extra", .integer 1)])]) = none :=
    Op.closedRecord_turn.refuses _ "extra".toList (by simp) (by simp)
  refine ⟨hread, hrefused, fun hopen ↦ ?_⟩
  have hextra : "extra".toList ∉ ["axis", "degrees"].map String.toList := by simp
  have hignored := hopen.insert hextra (.integer 1) [("axis".toList, Axis.up.encode),
    ("degrees".toList, .ofFloat32 90)] []
  have hequal := hrefused.symm.trans (hignored.trans hread)
  cases hequal

end PlantGrowth
