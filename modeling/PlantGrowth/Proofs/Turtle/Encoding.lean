import PlantGrowth.Proofs.Toml.Tree
import PlantGrowth.Turtle.Encoding

/-!
# Decoding scene and turtle values

Vectors, rotations, frames and placements are decoded from what they are encoded as, and lists of
placements one after another. So are states, operations and axes of turtles. The names of the
operations are different, so a name leads back to the one operation that it stands for.
-/

namespace PlantGrowth

open Toml Value

/-! ## Scenes -/

theorem Vector3.decodes (vector : Vector3 Float32) :
    Decodes Vector3.decode? vector.encode vector := by
  intro other hsame
  rw [Same.eq_ofFloats hsame]
  simp [ofFloats, Vector3.toList, Vector3.decode?]

theorem Quaternion.decodes (rotation : Quaternion Float32) :
    Decodes Quaternion.decode? rotation.encode rotation := by
  intro other hsame
  rw [Same.eq_ofFloats hsame]
  simp [ofFloats, Quaternion.toList, Quaternion.decode?]

namespace Scene

theorem MeshFrame.decodes (frame : MeshFrame Float32) :
    Decodes MeshFrame.decode? frame.encode frame := by
  intro other hsame
  obtain ⟨values, hfields, hmatch⟩ := hsame.exists_fields (by simp)
  rcases hmatch with _ | ⟨hoffset, _ | ⟨hrotation, _ | ⟨hscale, _ | _⟩⟩⟩
  have hfound : other.fields? fieldNames = some _ := hfields
  rw [MeshFrame.decode?, hfound]
  simp [Vector3.decodes frame.offset hoffset, Quaternion.decodes frame.rotation hrotation,
    decodes_float32 frame.scale hscale]

theorem Mesh.decodes (mesh : Mesh) : Decodes Mesh.decode? mesh.encode mesh := by
  intro other hsame
  rw [hsame.eq_of_isAtom rfl]
  cases mesh <;> rfl

theorem Placement.decodes (placement : Placement Float32) :
    Decodes Placement.decode? placement.encode placement := by
  intro other hsame
  obtain ⟨values, hfields, hmatch⟩ := hsame.exists_fields (by simp)
  rcases hmatch with _ | ⟨hmesh, _ | ⟨hposition, _ | ⟨hrotation, _ | ⟨hscale, _ | _⟩⟩⟩⟩
  have hfound : other.fields? fieldNames = some _ := hfields
  rw [Placement.decode?, hfound]
  simp [placement.mesh.decodes hmesh, Vector3.decodes placement.position hposition,
    Quaternion.decodes placement.rotation hrotation, decodes_float32 placement.scale hscale]

theorem decodes_placements (placements : List (Placement Float32)) :
    Decodes decodePlacements? (encodePlacements placements) placements := by
  intro other hsame
  obtain ⟨values, hfields, hmatch⟩ := hsame.exists_fields (by simp)
  rcases hmatch with _ | ⟨hplacements, _ | _⟩
  obtain ⟨found, rfl, helements⟩ := hplacements.exists_elements
  have hfound : other.fields? ["placements".toList] = some [.array found] := hfields
  rw [decodePlacements?, hfound]
  exact decodes_elements Placement.decodes helements

end Scene

namespace Turtle

/-! ## Turtles -/

theorem Axis.decodes (axis : Axis) : Decodes Axis.decode? axis.encode axis := by
  intro other hsame
  rw [hsame.eq_of_isAtom rfl]
  cases axis <;> rfl

theorem State.decodes (state : State Float32) : Decodes State.decode? state.encode state := by
  intro other hsame
  obtain ⟨values, hfields, hmatch⟩ := hsame.exists_fields (by simp)
  rcases hmatch with _ | ⟨hposition, _ | ⟨hrotation, _ | ⟨hlength, _ | ⟨hspread, hmatch⟩⟩⟩⟩
  rcases hmatch with _ | ⟨hscale, _ | _⟩
  have hfound : other.fields? fieldNames = some _ := hfields
  rw [State.decode?, hfound]
  simp [Vector3.decodes state.position hposition, Quaternion.decodes state.rotation hrotation,
    decodes_float32 state.stepLength hlength, decodes_float32 state.spread hspread,
    decodes_float32 state.scale hscale]

namespace Op

/-- A variant that is no plain operation and no turn carries a number. -/
theorem decode?_of_number {make : Float32 → Op Float32} {name : Word} {other carried : Value}
    {number : Float32} (hvariant : other.variant? = some (name, some carried))
    (hcarried : carried.float32? = some number)
    (hplain : (plain.find? fun op ↦ op.name.toList == name) = none)
    (hturn : (name == "turn".toList) = false)
    (hmake : (numeric.find? fun make ↦ (make 0).name.toList == name) = some make) :
    decode? other = some (make number) := by
  simp only [decode?, hvariant, Option.bind_eq_bind, Option.bind_some, hplain, hturn, hmake,
    hcarried, Bool.false_eq_true, if_false]
  rfl

theorem decodes (op : Op Float32) : Decodes decode? op.encode op := by
  intro other hsame
  cases op with
  | turn axis degrees =>
    obtain ⟨carried, hvariant, hcarried⟩ := hsame.exists_variant
    obtain ⟨values, hfields, hmatch⟩ := hcarried.exists_fields (by simp)
    rcases hmatch with _ | ⟨haxis, _ | ⟨hdegrees, _ | _⟩⟩
    have hturn : decodeTurn? carried = some (turn axis degrees) := by
      have hfound : carried.exactFields? ["axis".toList, "degrees".toList] = some _ :=
        (hcarried.exactFields?_eq (by simp)).trans hfields
      rw [decodeTurn?, hfound]
      simp [Axis.decodes axis haxis, decodes_float32 degrees hdegrees]
    simp only [decode?, hvariant, Option.bind_eq_bind, Option.bind_some]
    simp [plain, name, hturn]
  | yaw number | pitch number | roll number | setSpread number | setStep number =>
    obtain ⟨carried, hvariant, hcarried⟩ := hsame.exists_variant
    exact decode?_of_number hvariant (decodes_float32 number hcarried)
      (by simp [plain, name]) (by simp [name]) (by simp [numeric, name])
  | draw | move | ornament | shrink | push | pop | ignore =>
    rw [hsame.eq_of_isAtom rfl]
    rfl

end Op

end Turtle

end PlantGrowth
