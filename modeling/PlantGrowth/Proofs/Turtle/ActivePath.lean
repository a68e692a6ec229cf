import PlantGrowth.Proofs.Turtle.Branch
import PlantGrowth.Proofs.Turtle.Walk
import PlantGrowth.Turtle.Interpreter

/-!
# Walks along the active path

A walk keeps its states on a stack, but what it computes can be said without one. The turtle is where
the operations of the active path lead from the root, the remembered states are where the active
paths before the unmatched openings lead, and every placement is made from the state at the end of
the active path before its symbol.
-/

namespace PlantGrowth.Turtle

open Scene

/-! ## Operations on states -/

/-- Instructions that bring no argument. -/
def bare {α : Type} (ops : List (Op α)) : List (Instruction α) := ops.map fun op ↦ ⟨op, none⟩

theorem bare_append {α : Type} (first second : List (Op α)) :
    bare (first ++ second) = bare first ++ bare second :=
  List.map_append

@[simp]
theorem ops_bare {α : Type} (ops : List (Op α)) : Instruction.ops (bare ops) = ops := by
  simp [Instruction.ops, bare, Function.comp_def]

section Operations

variable {α : Type} [Mul α] [Elementary α]

/-- The placement an operation makes from a state. -/
def Op.mark (op : Op α) (state : State α) : Option (Placement α) :=
  match op with
  | .draw => some ⟨.branch, state.position, state.rotation, state.stepLength * state.scale⟩
  | .ornament => some ⟨.ornament, state.position, state.rotation, state.scale⟩
  | _ => none

theorem emit?_eq_mark (state : State α) (op : Op α) : state.emit? ⟨op, none⟩ = op.mark state := by
  cases op <;> rfl

variable [Add α] [Sub α] [Div α] [Neg α] [OfNat α 0] [OfNat α 1] [OfNat α 2]

/-- What an operation makes of a state. -/
def Op.act (op : Op α) (shrinkFactor : α) (state : State α) : State α :=
  match op with
  | .draw | .move => state.forward (state.stepLength * state.scale)
  | .yaw factor => state.turn .up (state.spread * factor)
  | .pitch factor => state.turn .right (state.spread * factor)
  | .roll factor => state.turn .heading (state.spread * factor)
  | .turn axis degrees => state.turn axis degrees
  | .shrink => state.scaled shrinkFactor
  | .setSpread degrees => state.withSpread degrees
  | .setStep length => state.withStepLength (Elementary.abs length)
  | .ornament | .push | .pop | .ignore => state

theorem advance_eq_act (shrinkFactor : α) (state : State α) (op : Op α) :
    state.advance shrinkFactor ⟨op, none⟩ = op.act shrinkFactor state := by
  cases op <;> rfl

/-- Where a path leads. -/
def State.along (root : State α) (shrinkFactor : α) (path : List (Op α)) : State α :=
  path.foldl (fun state op ↦ op.act shrinkFactor state) root

theorem State.along_concat (root : State α) (shrinkFactor : α) (path : List (Op α)) (op : Op α) :
    root.along shrinkFactor (path ++ [op]) =
      op.act shrinkFactor (root.along shrinkFactor path) := by
  simp [along]

end Operations

/-! ## The trace of a walk -/

variable {α : Type} [Mul α] [Elementary α]
  [Add α] [Sub α] [Div α] [Neg α] [OfNat α 0] [OfNat α 1] [OfNat α 2]

/-- The states at the unmatched openings, the outermost first. -/
def forks (shrinkFactor : α) (root : State α) (ops : List (Op α)) : List (State α) :=
  (openings ops).map fun opening ↦ root.along shrinkFactor (activePath (ops.take opening))

/-- The placements that operations make, each from the end of the active path before it. -/
def marks (shrinkFactor : α) (root : State α) (ops : List (Op α)) : List (Placement α) :=
  (List.range ops.length).filterMap fun position ↦
    ops[position]?.bind fun op ↦
      op.mark (root.along shrinkFactor (activePath (ops.take position)))

/-- The walk is as the active paths of the operations prescribe. -/
structure Traces (shrinkFactor : α) (root : State α) (ops : List (Op α)) (walk : Walk α) : Prop where
  turtle : walk.turtle = root.along shrinkFactor (activePath ops)
  stack : walk.stack.reverse = forks shrinkFactor root ops
  placed : walk.placed.toList = marks shrinkFactor root ops

theorem map_openings_append (shrinkFactor : α) (root : State α) (first second : List (Op α)) :
    ((openings first).map fun opening ↦
        root.along shrinkFactor (activePath ((first ++ second).take opening))) =
      forks shrinkFactor root first := by
  apply List.map_congr_left
  intro opening hopening
  rw [List.take_append_of_le_length (Nat.le_of_lt (lt_of_mem_openings hopening))]

theorem marks_concat (shrinkFactor : α) (root : State α) (ops : List (Op α)) (op : Op α) :
    marks shrinkFactor root (ops ++ [op]) =
      marks shrinkFactor root ops ++
        (op.mark (root.along shrinkFactor (activePath ops))).toList := by
  rw [marks, List.length_append, List.length_singleton, List.range_succ, List.filterMap_append]
  congr 1
  · apply List.filterMap_congr
    intro position hposition
    rw [List.mem_range] at hposition
    rw [List.getElem?_append_left hposition,
      List.take_append_of_le_length (Nat.le_of_lt hposition)]
  · cases hmark : op.mark (root.along shrinkFactor (activePath ops)) <;> simp [hmark]

namespace Walk

/-- Balanced instructions leave the remembered states as they are. -/
theorem stack_of_follow_balanced {settings : Settings α} {walk next : Walk α} {position : ℕ}
    {instructions : List (Instruction α)} (hbalanced : Balanced (Instruction.ops instructions))
    (hfollow : follow settings position walk instructions = .ok next) :
    next.stack = walk.stack := by
  obtain ⟨above, hstack⟩ := @exists_stack_above _ _ _ _ _ _ _ _ _ _ settings walk next position []
    walk.stack instructions rfl
    (fun count hcount ↦ by simpa using hbalanced.1 count (by simpa using hcount)) hfollow
  have hlength := stack_length_of_follow hfollow
  rw [hbalanced.2, hstack, List.length_append] at hlength
  have hnone : above = [] := List.eq_nil_of_length_eq_zero (by omega)
  rw [hstack, hnone, List.nil_append]

/-- Inside a branch whose inside is balanced so far, the state at its opening is on top. -/
theorem exists_fork {settings : Settings α} {walk last : Walk α} {position : ℕ}
    {before inner : List (Op α)} (hbalanced : Balanced inner)
    (hfollow : follow settings position walk (bare (before ++ .push :: inner)) = .ok last) :
    ∃ fork, follow settings position walk (bare before) = .ok fork ∧
      last.stack = fork.turtle :: fork.stack := by
  rw [bare_append] at hfollow
  obtain ⟨fork, hbefore, hrest⟩ := follow_append_eq_ok hfollow
  obtain ⟨opened, hstep, hinner⟩ := follow_cons_eq_ok hrest
  have hops : Balanced (Instruction.ops (bare inner)) := by
    rw [ops_bare]
    exact hbalanced
  have hstack : last.stack = opened.stack := stack_of_follow_balanced hops hinner
  refine ⟨fork, hbefore, ?_⟩
  rw [hstack, eq_of_step_push rfl hstep]

end Walk

namespace Traces

variable {settings : Settings α} {root : State α} {before inner ops : List (Op α)} {op : Op α}
  {walk next : Walk α}

theorem nil (shrinkFactor : α) (root : State α) :
    Traces shrinkFactor root [] (Walk.start root) := by
  constructor <;> simp [Walk.start, activePath, forks, openings, marks, State.along]

/-- Every step adds the mark of its operation at the end of the active path. -/
theorem placed_concat (htraces : Traces settings.shrinkFactor root ops walk)
    (hstep : walk.step settings ⟨op, none⟩ = .ok next) :
    next.placed.toList = marks settings.shrinkFactor root (ops ++ [op]) := by
  rw [Walk.placed_of_step hstep, emit?_eq_mark, marks_concat, htraces.placed, htraces.turtle]

theorem concat_of_plain (hplain : op.Plain) (htraces : Traces settings.shrinkFactor root ops walk)
    (hstep : walk.step settings ⟨op, none⟩ = .ok next) :
    Traces settings.shrinkFactor root (ops ++ [op]) next := by
  have hplaced := htraces.placed_concat hstep
  rw [Walk.step_plain hplain] at hstep
  cases hstep
  refine ⟨?_, ?_, hplaced⟩
  · rw [activePath_concat_of_plain hplain, State.along_concat, ← htraces.turtle, advance_eq_act]
  · rw [forks, openings_concat_of_plain hplain, map_openings_append]
    exact htraces.stack

/-- An opening remembers the end of the active path before it. -/
theorem concat_push (htraces : Traces settings.shrinkFactor root ops walk)
    (hstep : walk.step settings ⟨.push, none⟩ = .ok next) :
    Traces settings.shrinkFactor root (ops ++ [.push]) next := by
  have hplaced := htraces.placed_concat hstep
  have hnext := Walk.eq_of_step_push rfl hstep
  refine ⟨?_, ?_, hplaced⟩
  · rw [hnext, activePath_concat_push]
    exact htraces.turtle
  · rw [hnext, forks, openings_concat_push, List.map_append, map_openings_append, ← htraces.stack]
    simp [htraces.turtle]

/-- A closing returns to the walk before the branch that it closes. -/
theorem concat_branch (hbalanced : Balanced inner) {last : Walk α}
    (hbefore : Traces settings.shrinkFactor root before walk)
    (hlast : Traces settings.shrinkFactor root (before ++ .push :: inner) last)
    (hstack : last.stack = walk.turtle :: walk.stack)
    (hstep : last.step settings ⟨.pop, none⟩ = .ok next) :
    Traces settings.shrinkFactor root (before ++ .push :: inner ++ [.pop]) next := by
  have hplaced := hlast.placed_concat hstep
  have hsame : before ++ .push :: inner ++ [.pop] = before ++ branch inner := by simp [branch]
  rw [Walk.step_pop rfl hstack] at hstep
  cases hstep
  refine ⟨?_, ?_, hplaced⟩
  · rw [hsame, activePath_branch before hbalanced]
    exact hbefore.turtle
  · rw [hsame, forks, openings_branch before hbalanced, map_openings_append]
    exact hbefore.stack

/-- A walk that is carried out traces the active paths of its operations. -/
theorem of_follow
    (hfollow : Walk.follow settings 0 (Walk.start root) (bare ops) = .ok walk) :
    Traces settings.shrinkFactor root ops walk := by
  -- A closing leads back to the operations before its branch, so the induction is on the length.
  induction hlength : ops.length using Nat.strong_induction_on generalizing ops walk with
  | _ length ih =>
    subst hlength
    rcases ops.eq_nil_or_concat' with rfl | ⟨ops, op, rfl⟩
    · cases hfollow
      exact nil _ _
    rw [bare_append] at hfollow
    obtain ⟨last, hfirst, hstep⟩ := Walk.follow_concat_eq_ok hfollow
    have hlast : Traces settings.shrinkFactor root ops last := ih ops.length (by simp) hfirst rfl
    rcases op.push_or_pop_or_plain with rfl | rfl | hplain
    · exact hlast.concat_push hstep
    · have hopen : 0 < rise ops := by
        have hheight := Walk.stack_length_of_follow hfirst
        have hclosed := Walk.stack_length_of_step hstep
        simp only [Walk.start, List.length_nil, ops_bare, rise_pop] at hheight hclosed
        omega
      obtain ⟨before, inner, rfl, hbalanced⟩ := exists_last_opening hopen
      obtain ⟨fork, hfork, hstack⟩ := Walk.exists_fork hbalanced hfirst
      have hbefore : Traces settings.shrinkFactor root before fork :=
        ih before.length (by simp) hfork rfl
      exact concat_branch hbalanced hbefore hlast hstack hstep
    · exact hlast.concat_of_plain hplain hstep

end Traces

/-! ## Interpreters -/

namespace Interpreter

/-- When the first symbols of a word are read without a fault, the turtle, the remembered states and
the placements are those of the active paths, and the other symbols are read on from there. -/
theorem walk_traces_activePath (interpreter : Interpreter α) (root : State α) (word : Word)
    (count : ℕ) (walk : Walk α)
    (hwalk : Walk.follow interpreter.settings 0 (Walk.start root)
      (interpreter.instructions (word.take count)) = .ok walk) :
    Traces interpreter.settings.shrinkFactor root
        ((word.take count).map interpreter.convention.op) walk ∧
      Walk.follow interpreter.settings 0 (Walk.start root) (interpreter.instructions word) =
        Walk.follow interpreter.settings (word.take count).length walk
          (interpreter.instructions (word.drop count)) := by
  constructor
  · apply Traces.of_follow
    rw [← hwalk, bare, instructions, List.map_map]
    rfl
  · have hsplit : interpreter.instructions word =
        interpreter.instructions (word.take count) ++
          interpreter.instructions (word.drop count) := by
      rw [instructions, instructions, instructions, ← List.map_append, List.take_append_drop]
    rw [hsplit, Walk.follow_append, hwalk]
    simp [Except.bind, instructions]

/-- A closed branch, then a branch left open, under the customary convention. -/
theorem walk_traces_activePath_open_branch :
    ∃ walk, Walk.follow Settings.default 0 (Walk.start Settings.default.root)
        (instructions ⟨Settings.default, Convention.standard⟩ ("F[+F]F[A]]".toList.take 8)) =
          .ok walk ∧
      Traces Settings.default.shrinkFactor Settings.default.root
        (("F[+F]F[A]]".toList.take 8).map Convention.standard.op) walk :=
  ⟨_, rfl, (walk_traces_activePath ⟨Settings.default, Convention.standard⟩ Settings.default.root
    "F[+F]F[A]]".toList 8 _ rfl).1⟩

end Interpreter

end PlantGrowth.Turtle
