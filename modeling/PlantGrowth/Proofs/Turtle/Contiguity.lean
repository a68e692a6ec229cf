import Mathlib.Analysis.SpecialFunctions.Trigonometric.Basic
import PlantGrowth.Proofs.Geometry.Rotation
import PlantGrowth.Proofs.Turtle.Parallel
import PlantGrowth.Turtle.Interpreter

/-!
# Contiguous branches

In exact arithmetic turns keep rotations at length one, so all turtles and all remembered states of a
walk have three orthogonal axes of length one. From such a state a branch mesh ends where its turtle
goes, although the mesh is placed by a matrix and the turtle moves along a rotated vector. Until the
turtle moves again or returns to a fork, the next branch begins there.
-/

namespace PlantGrowth.Turtle

open Scene

/-! ## Turtles that stay where they are -/

section Steps

variable {α : Type}

/-- The operation leads the turtle nowhere and draws no branch. -/
def Op.stays : Op α → Bool
  | .draw | .move | .pop => false
  | _ => true

variable [Mul α] [Elementary α]

/-- Such an operation places nothing but ornaments. -/
theorem State.mesh_of_emit? {instruction : Instruction α} (hstays : instruction.op.stays = true)
    {state : State α} {placement : Placement α}
    (hplacement : placement ∈ (state.emit? instruction).toList) : placement.mesh = .ornament := by
  rcases instruction with ⟨op, argument⟩
  cases op with
  | draw => cases hstays
  | ornament =>
    cases List.mem_singleton.1 hplacement
    rfl
  | _ => cases hplacement

variable [Add α] [Sub α] [Div α] [Neg α] [OfNat α 0] [OfNat α 1] [OfNat α 2]
  {settings : Settings α} {walk last : Walk α} {instructions : List (Instruction α)}

theorem State.position_advance {shrinkFactor : α} {instruction : Instruction α}
    (hstays : instruction.op.stays = true) (state : State α) :
    (state.advance shrinkFactor instruction).position = state.position := by
  rcases instruction with ⟨op, argument⟩
  cases op with
  | draw => cases hstays
  | move => cases hstays
  | pop => cases hstays
  | _ => rfl

theorem Walk.position_of_step {instruction : Instruction α} (hstays : instruction.op.stays = true)
    (hstep : walk.step settings instruction = .ok last) :
    last.turtle.position = walk.turtle.position := by
  rcases step_ok_cases hstep with ⟨-, -, rfl⟩ | ⟨remembered, stack, hop, -, -⟩ | ⟨-, rfl⟩
  · rfl
  · rw [hop] at hstays
    cases hstays
  · exact State.position_advance hstays walk.turtle

theorem Walk.follow_of_stays {position : ℕ}
    (hstays : ∀ instruction ∈ instructions, instruction.op.stays = true)
    (hfollow : follow settings position walk instructions = .ok last) :
    last.turtle.position = walk.turtle.position ∧
      ∃ ornaments, last.placed.toList = walk.placed.toList ++ ornaments ∧
        ∀ placement ∈ ornaments, placement.mesh = .ornament := by
  induction instructions generalizing position walk with
  | nil =>
    cases hfollow
    exact ⟨rfl, [], (List.append_nil _).symm, by simp⟩
  | cons instruction rest ih =>
    obtain ⟨next, hstep, hrest⟩ := follow_cons_eq_ok hfollow
    obtain ⟨hfirst, hothers⟩ := List.forall_mem_cons.1 hstays
    obtain ⟨hposition, ornaments, hplaced, hmesh⟩ := ih hothers hrest
    refine ⟨hposition.trans (position_of_step hfirst hstep),
      (walk.turtle.emit? instruction).toList ++ ornaments, ?_, ?_⟩
    · rw [hplaced, placed_of_step hstep, List.append_assoc]
    · intro placement hplacement
      rcases List.mem_append.1 hplacement with hemitted | hlater
      · exact State.mesh_of_emit? hfirst hemitted
      · exact hmesh placement hlater

/-! ## What a walk has placed -/

/-- A walk that goes on keeps what it has placed, even if it is interrupted. -/
theorem Walk.exists_placedBy_follow (settings : Settings α) (position : ℕ) (walk : Walk α)
    (instructions : List (Instruction α)) :
    ∃ later, placedBy ((follow settings position walk instructions).map fun last ↦
      last.placed.toList) = walk.placed.toList ++ later := by
  induction instructions generalizing position walk with
  | nil => exact ⟨[], (List.append_nil _).symm⟩
  | cons instruction rest ih =>
    rw [follow]
    cases hstep : walk.step settings instruction with
    | error fault => exact ⟨[], (List.append_nil _).symm⟩
    | ok next =>
      obtain ⟨later, hlater⟩ := ih (position + 1) next
      refine ⟨(walk.turtle.emit? instruction).toList ++ later, ?_⟩
      rw [hlater, placed_of_step hstep, List.append_assoc]

theorem Walk.exists_placedBy_append {root : State α} {before : List (Instruction α)}
    (hbefore : follow settings 0 (start root) before = .ok walk)
    (after : List (Instruction α)) :
    ∃ later, placedBy (placements settings root (before ++ after)) =
      walk.placed.toList ++ later := by
  rw [placements, follow_append, hbefore]
  exact exists_placedBy_follow settings (0 + before.length) walk after

end Steps

/-! ## Frames -/

theorem Axis.dot_vector (axis other : Axis) :
    (axis.vector : Vector3 ℝ).dot other.vector = if axis = other then 1 else 0 := by
  cases axis <;> cases other <;>
    simp [vector, Vector3.unitX, Vector3.unitY, Vector3.unitZ, Vector3.dot]

section Arithmetic

variable [Elementary ℝ]

/-- The rotation has length one, a turn about any of the turtle's own axes has a length to divide
by, and the axes are orthogonal and of length one. -/
structure Framed (state : State ℝ) : Prop where
  length : state.rotation.length = 1
  turned : ∀ (axis : Axis) (radians : ℝ),
    (state.rotation.compose (Quaternion.ofAxisAngle axis.vector radians)).length ≠ 0
  orthonormal : ∀ axis other : Axis,
    (state.basis axis).dot (state.basis other) = if axis = other then 1 else 0

section Exact

variable {state : State ℝ}

theorem lengthSquared_turned (hexact : Elementary.Exact) (hunit : state.rotation.lengthSquared = 1)
    (axis : Axis) (radians : ℝ) :
    (state.rotation.compose (Quaternion.ofAxisAngle axis.vector radians)).lengthSquared = 1 := by
  have haxis : (axis.vector : Vector3 ℝ).dot axis.vector = 1 := by
    rw [Axis.dot_vector, if_pos rfl]
  rw [Quaternion.lengthSquared_compose, hunit, one_mul,
    Quaternion.lengthSquared_ofAxisAngle hexact.circle haxis]

theorem framed_of_unit (hexact : Elementary.Exact) (hunit : state.rotation.lengthSquared = 1) :
    Framed state := by
  refine ⟨(Quaternion.length_eq_one_iff hexact).2 hunit, ?_, ?_⟩
  · intro axis radians
    rw [(Quaternion.length_eq_one_iff hexact).2 (lengthSquared_turned hexact hunit axis radians)]
    exact one_ne_zero
  · intro axis other
    rw [State.basis, State.basis, Quaternion.dot_rotate, hunit, one_mul, one_mul, Axis.dot_vector]

/-- A turn is already of length one before it is normalized. -/
theorem lengthSquared_turn (hexact : Elementary.Exact) (hunit : state.rotation.lengthSquared = 1)
    (axis : Axis) (degrees : ℝ) : (state.turn axis degrees).rotation.lengthSquared = 1 := by
  have hturned := lengthSquared_turned hexact hunit axis (degrees * Elementary.radiansPerDegree)
  rw [State.turn, Quaternion.normalize_of_unit hexact hturned]
  exact hturned

theorem invariant_unit (hexact : Elementary.Exact) (shrinkFactor : ℝ) :
    Invariant shrinkFactor (fun state ↦ state.rotation.lengthSquared = 1)
      fun placement ↦ placement.rotation.lengthSquared = 1 := by
  constructor
  · intro state instruction hunit
    rcases instruction with ⟨op, argument⟩
    cases op with
    | yaw factor => exact lengthSquared_turn hexact hunit _ _
    | pitch factor => exact lengthSquared_turn hexact hunit _ _
    | roll factor => exact lengthSquared_turn hexact hunit _ _
    | turn axis degrees => exact lengthSquared_turn hexact hunit _ _
    | _ => exact hunit
  · intro state instruction hunit placement hplacement
    rcases instruction with ⟨op, argument⟩
    cases op with
    | draw =>
      cases hplacement
      exact hunit
    | ornament =>
      cases hplacement
      exact hunit
    | _ => cases hplacement

end Exact

/-! ## Branches -/

/-- The placement is a branch from where the turtle was to where it is. -/
structure Spans (placement : Placement ℝ) (first last : State ℝ) : Prop where
  mesh : placement.mesh = .branch
  origin : placement.origin = first.position
  tip : placement.tip = last.position

variable {settings : Settings ℝ} {root : State ℝ} {walk : Walk ℝ}

theorem Walk.exists_spans (settings : Settings ℝ) {instruction : Instruction ℝ}
    (hunit : walk.turtle.rotation.lengthSquared = 1) (hop : instruction.op = .draw) :
    ∃ next placement, walk.step settings instruction = .ok next ∧
      next.placed.toList = walk.placed.toList ++ [placement] ∧
      Spans placement walk.turtle next.turtle := by
  have hplain : instruction.op.Plain := by
    rw [hop]
    exact ⟨rfl, rfl⟩
  have hstep : walk.step settings instruction = .ok _ := step_plain hplain
  set placement : Placement ℝ :=
    ⟨.branch, walk.turtle.position, walk.turtle.rotation, instruction.length walk.turtle⟩
  have hemit : walk.turtle.emit? instruction = some placement := by
    rw [State.emit?, hop]
  have hadvance : walk.turtle.advance settings.shrinkFactor instruction =
      walk.turtle.forward (instruction.length walk.turtle) := by
    rw [State.advance, hop]
  refine ⟨_, placement, hstep, ?_, rfl, rfl, ?_⟩
  · rw [placed_of_step hstep, hemit]
    rfl
  · calc
      _ = walk.turtle.position +
          (walk.turtle.rotation.rotate Vector3.unitZ).scale (instruction.length walk.turtle) :=
        Affine.point_similarity hunit _ _ _
      _ = (walk.turtle.advance settings.shrinkFactor instruction).position := by
        rw [hadvance]
        rfl

/-- What an exact walk is like, and what its run places. All its states are framed. Every drawing
places a branch that spans the way of the turtle, and a second drawing places one that begins at the
tip of the first if the turtle has stayed in between. -/
structure Contiguous (settings : Settings ℝ) (root : State ℝ) (instructions : List (Instruction ℝ))
    (run : Except (Interruption ℝ) (List (Placement ℝ))) : Prop where
  frames : ∀ (before after : List (Instruction ℝ)) (walk : Walk ℝ), instructions = before ++ after →
    Walk.follow settings 0 (Walk.start root) before = .ok walk →
    Framed walk.turtle ∧ ∀ state ∈ walk.stack, Framed state
  spans : ∀ (before after : List (Instruction ℝ)) (instruction : Instruction ℝ) (walk : Walk ℝ),
    instructions = before ++ instruction :: after → instruction.op = .draw →
    Walk.follow settings 0 (Walk.start root) before = .ok walk →
    ∃ next placement later,
      Walk.follow settings 0 (Walk.start root) (before ++ [instruction]) = .ok next ∧
      placedBy run = walk.placed.toList ++ placement :: later ∧
      Spans placement walk.turtle next.turtle
  joints : ∀ (before between after : List (Instruction ℝ)) (first second : Instruction ℝ)
    (last : Walk ℝ), instructions = before ++ first :: (between ++ second :: after) →
    first.op = .draw → second.op = .draw →
    (∀ instruction ∈ between, instruction.op.stays = true) →
    Walk.follow settings 0 (Walk.start root) (before ++ first :: between) = .ok last →
    ∃ walk earlier ornaments later rest,
      Walk.follow settings 0 (Walk.start root) before = .ok walk ∧
      placedBy run = walk.placed.toList ++ earlier :: (ornaments ++ later :: rest) ∧
      (∀ placement ∈ ornaments, placement.mesh = .ornament) ∧
      earlier.mesh = .branch ∧ later.mesh = .branch ∧ later.origin = earlier.tip

section Walks

variable {before between : List (Instruction ℝ)} {first second instruction : Instruction ℝ}
  {last : Walk ℝ}

theorem Walk.unit_of_follow (hexact : Elementary.Exact) (hroot : root.rotation.lengthSquared = 1)
    (hbefore : Walk.follow settings 0 (Walk.start root) before = .ok walk) :
    walk.turtle.rotation.lengthSquared = 1 ∧
      ∀ state ∈ walk.stack, state.rotation.lengthSquared = 1 :=
  (invariant_unit hexact settings.shrinkFactor).of_follow hroot hbefore

theorem Walk.exists_spans_of_follow (hexact : Elementary.Exact)
    (hroot : root.rotation.lengthSquared = 1) (hop : instruction.op = .draw)
    (hbefore : Walk.follow settings 0 (Walk.start root) before = .ok walk) :
    ∃ next placement,
      Walk.follow settings 0 (Walk.start root) (before ++ [instruction]) = .ok next ∧
      next.placed.toList = walk.placed.toList ++ [placement] ∧
      Spans placement walk.turtle next.turtle := by
  obtain ⟨next, placement, hstep, hplaced, hspans⟩ :=
    exists_spans settings (unit_of_follow hexact hroot hbefore).1 hop
  refine ⟨next, placement, ?_, hplaced, hspans⟩
  rw [follow_append, hbefore]
  simp only [Except.bind, follow, hstep]

/-- Between two drawings that are not separated only ornaments are placed. -/
theorem Walk.exists_joint (hexact : Elementary.Exact) (hroot : root.rotation.lengthSquared = 1)
    (hfirst : first.op = .draw) (hsecond : second.op = .draw)
    (hstays : ∀ instruction ∈ between, instruction.op.stays = true)
    (hlast : Walk.follow settings 0 (Walk.start root) (before ++ first :: between) = .ok last) :
    ∃ walk next earlier ornaments later,
      Walk.follow settings 0 (Walk.start root) before = .ok walk ∧
      Walk.follow settings 0 (Walk.start root) (before ++ first :: between ++ [second]) =
        .ok next ∧
      next.placed.toList = walk.placed.toList ++ earlier :: (ornaments ++ [later]) ∧
      (∀ placement ∈ ornaments, placement.mesh = .ornament) ∧
      earlier.mesh = .branch ∧ later.mesh = .branch ∧ later.origin = earlier.tip := by
  obtain ⟨walk, hbefore, -⟩ := follow_append_eq_ok hlast
  obtain ⟨drawn, earlier, hdrawn, hearlier, hspan⟩ :=
    exists_spans_of_follow hexact hroot hfirst hbefore
  have hsplit : before ++ first :: between = before ++ [first] ++ between := by simp
  have hbetween : follow settings (0 + (before ++ [first]).length) drawn between = .ok last := by
    rw [hsplit, follow_append, hdrawn] at hlast
    exact hlast
  obtain ⟨hposition, ornaments, hornaments, hmesh⟩ := follow_of_stays hstays hbetween
  obtain ⟨next, later, hnext, hlater, hother⟩ := exists_spans_of_follow hexact hroot hsecond hlast
  refine ⟨walk, next, earlier, ornaments, later, hbefore, hnext, ?_, hmesh, hspan.mesh,
    hother.mesh, ?_⟩
  · rw [hlater, hornaments, hearlier]
    simp
  · rw [hother.origin, hposition, hspan.tip]

theorem Walk.placements_contiguous (hexact : Elementary.Exact)
    (hroot : root.rotation.lengthSquared = 1) (settings : Settings ℝ)
    (instructions : List (Instruction ℝ)) :
    Contiguous settings root instructions (placements settings root instructions) := by
  refine ⟨?_, ?_, ?_⟩
  · intro before after walk _ hbefore
    obtain ⟨hturtle, hstack⟩ := unit_of_follow hexact hroot hbefore
    exact ⟨framed_of_unit hexact hturtle,
      fun state hstate ↦ framed_of_unit hexact (hstack state hstate)⟩
  · intro before after instruction walk hsplit hop hbefore
    obtain ⟨next, placement, hnext, hplaced, hspans⟩ :=
      exists_spans_of_follow hexact hroot hop hbefore
    obtain ⟨later, hlater⟩ := exists_placedBy_append hnext after
    refine ⟨next, placement, later, hnext, ?_, hspans⟩
    have hwhole : instructions = before ++ [instruction] ++ after := by simp [hsplit]
    rw [hwhole, hlater, hplaced]
    simp
  · intro before between after first second last hsplit hfirst hsecond hstays hlast
    obtain ⟨walk, next, earlier, ornaments, later, hbefore, hnext, hplaced, hjoint⟩ :=
      exists_joint hexact hroot hfirst hsecond hstays hlast
    obtain ⟨rest, hrest⟩ := exists_placedBy_append hnext after
    refine ⟨walk, earlier, ornaments, later, rest, hbefore, ?_, hjoint⟩
    have hwhole : instructions = before ++ first :: between ++ [second] ++ after := by
      simp [hsplit]
    rw [hwhole, hrest, hplaced]
    simp

end Walks

/-! ## Interpreters -/

/-- Whatever word is interpreted in exact arithmetic from a root with a rotation of length one, all
its states are framed and its branches meet. -/
theorem Interpreter.branches_are_contiguous (hexact : Elementary.Exact)
    (interpreter : Interpreter ℝ) (root : State ℝ) (hroot : root.rotation.length = 1)
    (word : Word) :
    Contiguous interpreter.settings root (interpreter.instructions word)
      (interpreter.interpret word root) :=
  Walk.placements_contiguous hexact ((Quaternion.length_eq_one_iff hexact).1 hroot) _ _

end Arithmetic

/-- The functions of real analysis. -/
noncomputable instance : Elementary ℝ where
  sqrt := Real.sqrt
  sin := Real.sin
  cos := Real.cos
  abs number := |number|
  half := 1 / 2
  radiansPerDegree := Real.pi / 180

theorem exact_real : Elementary.Exact := ⟨fun _ ↦ rfl, Real.sin_sq_add_cos_sq⟩

noncomputable def exactInterpreter : Interpreter ℝ :=
  ⟨⟨Vector3.zero, 1, 60, 4 / 5, 1024⟩, Convention.standard⟩

/-- A turn, an ornament and an open branch between two drawings, and a fault behind them. -/
theorem Interpreter.branches_are_contiguous_open_branch :
    (∃ walk, Walk.follow exactInterpreter.settings 0 (Walk.start exactInterpreter.root)
        (exactInterpreter.instructions "f+F!&A[".toList) = .ok walk ∧
      Framed walk.turtle ∧ walk.stack.length = 1 ∧ ∀ state ∈ walk.stack, Framed state) ∧
    (∃ (walk next : Walk ℝ) (placement : Placement ℝ) (later : List (Placement ℝ)),
      Walk.follow exactInterpreter.settings 0 (Walk.start exactInterpreter.root)
        (exactInterpreter.instructions "f+".toList) = .ok walk ∧
      placedBy (exactInterpreter.interpret "f+F!&A[F]]".toList exactInterpreter.root) =
        walk.placed.toList ++ placement :: later ∧
      Spans placement walk.turtle next.turtle) ∧
    ∃ walk earlier ornaments later rest,
      Walk.follow exactInterpreter.settings 0 (Walk.start exactInterpreter.root)
        (exactInterpreter.instructions "f+".toList) = .ok walk ∧
      placedBy (exactInterpreter.interpret "f+F!&A[F]]".toList exactInterpreter.root) =
        walk.placed.toList ++ earlier :: (ornaments ++ later :: rest) ∧
      later.origin = earlier.tip := by
  have hroot : exactInterpreter.root.rotation.length = 1 := by
    rw [Quaternion.length_eq_one_iff exact_real]
    simp [Interpreter.root, Settings.root, Quaternion.identity, Quaternion.lengthSquared]
  have hcontiguous := branches_are_contiguous exact_real exactInterpreter exactInterpreter.root
    hroot "f+F!&A[F]]".toList
  refine ⟨?_, ?_, ?_⟩
  · obtain ⟨hturtle, hstack⟩ := hcontiguous.frames
      (exactInterpreter.instructions "f+F!&A[".toList) (exactInterpreter.instructions "F]]".toList)
      _ rfl rfl
    exact ⟨_, rfl, hturtle, rfl, hstack⟩
  · obtain ⟨next, placement, later, -, hplaced, hspans⟩ := hcontiguous.spans
      (exactInterpreter.instructions "f+".toList)
      (exactInterpreter.instructions "!&A[F]]".toList) ⟨.draw, none⟩ _ rfl rfl rfl
    exact ⟨_, next, placement, later, rfl, hplaced, hspans⟩
  · obtain ⟨walk, earlier, ornaments, later, rest, hwalk, hplaced, -, -, -, hjoint⟩ :=
      hcontiguous.joints (exactInterpreter.instructions "f+".toList)
        (exactInterpreter.instructions "!&A[".toList) (exactInterpreter.instructions "]]".toList)
        ⟨.draw, none⟩ ⟨.draw, none⟩ _ rfl rfl rfl (by decide) rfl
    exact ⟨walk, earlier, ornaments, later, rest, hwalk, hplaced, hjoint⟩

end PlantGrowth.Turtle
