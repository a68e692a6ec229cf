import PlantGrowth.Proofs.Turtle.Walk
import PlantGrowth.Turtle.Module

/-!
# Interruptions

Whether, where and how a walk is interrupted is a matter of heights alone. A walk is complete
exactly when all heights lie between zero and the greatest depth. Otherwise the first instruction
that leads out of this range interrupts it, by closing a branch below zero or by opening one beyond
the depth, and what is kept are the placements of the walk up to that instruction. The states, the
lengths and angles, and the parameters of modules have no influence.
-/

namespace PlantGrowth.Turtle

open Scene

/-- The fault of a failed run and its position. -/
def failure? {α β : Type} : Except (Interruption α) β → Option (Fault × ℕ)
  | .ok _ => none
  | .error interruption => some (interruption.fault, interruption.position)

/-- Runs end as the heights of their operations prescribe, where `run count` is the run over the
first `count` of them. -/
structure EndsByHeight {α : Type} (depth : ℕ) (ops : List (Op α))
    (run : ℕ → Except (Interruption α) (List (Placement α))) : Prop where
  complete_iff : (∃ placed, run ops.length = .ok placed) ↔ Within depth ops
  complete_or_interrupted : (∃ placed, run ops.length = .ok placed) ∨
    ∃ position placed, IsLeast (exits depth ops) position ∧ run position = .ok placed ∧
      ((height ops (position + 1) = -1 ∧
          run ops.length = .error ⟨.unmatchedPop, position, placed⟩) ∨
        (height ops (position + 1) = depth + 1 ∧
          run ops.length = .error ⟨.stackOverflow depth, position, placed⟩))

/-! ## Walks -/

namespace Walk

variable {α : Type} [Mul α] [Elementary α]
  [Add α] [Sub α] [Div α] [Neg α] [OfNat α 0] [OfNat α 1] [OfNat α 2]
  {settings : Settings α} {instructions : List (Instruction α)}

theorem exists_follow_take (settings : Settings α) (root : State α)
    (instructions : List (Instruction α)) {total : ℕ} (htotal : total ≤ instructions.length)
    (hrange : ∀ count ≤ total, 0 ≤ height (Instruction.ops instructions) count ∧
      height (Instruction.ops instructions) count ≤ settings.maxStackDepth) :
    ∃ walk, follow settings 0 (start root) (instructions.take total) = .ok walk ∧
      (walk.stack.length : ℤ) = height (Instruction.ops instructions) total := by
  have hprefix : ∀ count ≤ (instructions.take total).length,
      0 ≤ ((start root).stack.length : ℤ) +
          height (Instruction.ops (instructions.take total)) count ∧
        ((start root).stack.length : ℤ) +
          height (Instruction.ops (instructions.take total)) count ≤ settings.maxStackDepth := by
    intro count hcount
    rw [List.length_take] at hcount
    rw [Instruction.ops_take, height_take (by omega)]
    simpa [start] using hrange count (by omega)
  obtain ⟨walk, hfollow, hlength⟩ := exists_follow 0 hprefix
  refine ⟨walk, hfollow, ?_⟩
  rw [hlength, Instruction.ops_take]
  simp [start, height]

/-- A step that fails interrupts the walk there and keeps what was placed before it. -/
theorem placements_of_step_error {root : State α} {walk : Walk α} {fault : Fault} {position : ℕ}
    (hposition : position < instructions.length)
    (hfollow : follow settings 0 (start root) (instructions.take position) = .ok walk)
    (hstep : walk.step settings instructions[position] = .error fault) :
    placements settings root instructions = .error ⟨fault, position, walk.placed.toList⟩ := by
  have hsplit : instructions = instructions.take position ++
      instructions[position] :: instructions.drop (position + 1) := by
    rw [← List.drop_eq_getElem_cons hposition, List.take_append_drop]
  have hwhole : follow settings 0 (start root) instructions =
      .error ⟨fault, position, walk.placed.toList⟩ := by
    calc
      _ = follow settings position walk
          (instructions[position] :: instructions.drop (position + 1)) := by
        conv_lhs => rw [hsplit, follow_append, hfollow]
        simp [Except.bind, Nat.min_eq_left (Nat.le_of_lt hposition)]
      _ = _ := by rw [follow, hstep]
  rw [placements, hwhole]
  rfl

/-- At the first exit the step fails, by the side on which the height leaves its range. -/
theorem placements_of_first_exit (root : State α) {position : ℕ}
    (hposition : position < instructions.length)
    (hfirst : IsLeast (exits settings.maxStackDepth (Instruction.ops instructions)) position) :
    ∃ placed, placements settings root (instructions.take position) = .ok placed ∧
      ((height (Instruction.ops instructions) (position + 1) = -1 ∧
          placements settings root instructions = .error ⟨.unmatchedPop, position, placed⟩) ∨
        (height (Instruction.ops instructions) (position + 1) = settings.maxStackDepth + 1 ∧
          placements settings root instructions =
            .error ⟨.stackOverflow settings.maxStackDepth, position, placed⟩)) := by
  obtain ⟨walk, hfollow, hlength⟩ := exists_follow_take settings root instructions
    (Nat.le_of_lt hposition) fun count hcount ↦ range_before_exit hfirst hcount
  have hheight : height (Instruction.ops instructions) (position + 1) =
      walk.stack.length + rise [instructions[position].op] := by
    rw [height_succ (by simpa using hposition), Instruction.getElem_ops hposition, hlength]
  have hrange := range_before_exit hfirst (Nat.le_refl position)
  refine ⟨walk.placed.toList, by rw [placements, hfollow]; rfl, ?_⟩
  rcases instructions[position].op.push_or_pop_or_plain with hop | hop | hop
  · rw [hop, rise_push] at hheight
    rcases hfirst.1 with hlow | hhigh
    · omega
    · exact Or.inr ⟨hhigh,
        placements_of_step_error hposition hfollow (step_push_full hop (by omega))⟩
  · rw [hop, rise_pop] at hheight
    rcases hfirst.1 with hlow | hhigh
    · have hempty : walk.stack = [] := List.eq_nil_of_length_eq_zero (by omega)
      exact Or.inl ⟨hlow, placements_of_step_error hposition hfollow (step_pop_nil hop hempty)⟩
    · omega
  · rw [rise_of_plain hop] at hheight
    rcases hfirst.1 with hlow | hhigh <;> omega

theorem placements_of_within (root : State α)
    (hwithin : Within settings.maxStackDepth (Instruction.ops instructions)) :
    ∃ placed, placements settings root instructions = .ok placed := by
  obtain ⟨walk, hfollow, -⟩ := exists_follow_take settings root instructions
    (Nat.le_refl _) fun count hcount ↦ hwithin count (by simpa using hcount)
  rw [List.take_length] at hfollow
  exact ⟨walk.placed.toList, by rw [placements, hfollow]; rfl⟩

theorem placements_endsByHeight (settings : Settings α) (root : State α)
    (instructions : List (Instruction α)) :
    EndsByHeight settings.maxStackDepth (Instruction.ops instructions)
      fun count ↦ placements settings root (instructions.take count) := by
  by_cases hwithin : Within settings.maxStackDepth (Instruction.ops instructions)
  · have hplaced := placements_of_within root hwithin
    constructor
    · simpa [hwithin] using hplaced
    · exact Or.inl (by simpa using hplaced)
  · obtain ⟨position, hposition, hfirst⟩ := exists_first_exit hwithin
    rw [Instruction.length_ops] at hposition
    obtain ⟨placed, hprefix, houtcome⟩ := placements_of_first_exit root hposition hfirst
    constructor
    · rw [Instruction.length_ops, List.take_length]
      refine ⟨?_, fun hall ↦ absurd hall hwithin⟩
      intro hok
      obtain ⟨_, hplaced⟩ := hok
      rcases houtcome with ⟨-, herror⟩ | ⟨-, herror⟩ <;> rw [herror] at hplaced <;> cases hplaced
    · rw [Instruction.length_ops, List.take_length]
      exact Or.inr ⟨position, placed, hfirst, hprefix, houtcome⟩

end Walk

/-! ## Failures of runs with the same heights -/

namespace EndsByHeight

variable {α β : Type} {depth : ℕ} {ops : List (Op α)} {others : List (Op β)}
  {run : ℕ → Except (Interruption α) (List (Placement α))}
  {otherRun : ℕ → Except (Interruption β) (List (Placement β))}

/-- A failed run reports the first exit. -/
theorem failure?_eq_some (hends : EndsByHeight depth ops run) (hleave : ¬ Within depth ops) :
    ∃ position, IsLeast (exits depth ops) position ∧
      failure? (run ops.length) =
        some (if height ops (position + 1) = -1 then .unmatchedPop else .stackOverflow depth,
          position) := by
  rcases hends.complete_or_interrupted with hplaced | ⟨position, placed, hfirst, -, houtcome⟩
  · exact absurd (hends.complete_iff.1 hplaced) hleave
  · refine ⟨position, hfirst, ?_⟩
    rcases houtcome with ⟨hlow, herror⟩ | ⟨hhigh, herror⟩
    · rw [herror, if_pos hlow]
      rfl
    · rw [herror, if_neg (by omega)]
      rfl

theorem failure?_eq_none (hends : EndsByHeight depth ops run) (hwithin : Within depth ops) :
    failure? (run ops.length) = none := by
  obtain ⟨placed, hplaced⟩ := hends.complete_iff.2 hwithin
  rw [hplaced]
  rfl

theorem failure?_congr (hends : EndsByHeight depth ops run)
    (hothers : EndsByHeight depth others otherRun) (hsame : brackets ops = brackets others) :
    failure? (run ops.length) = failure? (otherRun others.length) := by
  have hheight : height ops = height others := height_congr hsame
  have hexits : exits depth ops = exits depth others := by rw [exits, hheight, exits]
  have hlength : ops.length = others.length := by
    simpa [brackets] using congrArg List.length hsame
  have hrange : Within depth ops ↔ Within depth others := by rw [Within, hheight, hlength, Within]
  by_cases hwithin : Within depth ops
  · rw [hends.failure?_eq_none hwithin, hothers.failure?_eq_none (hrange.1 hwithin)]
  · obtain ⟨position, hfirst, hfailure⟩ := hends.failure?_eq_some hwithin
    obtain ⟨other, hother, hfailures⟩ :=
      hothers.failure?_eq_some fun hcontra ↦ hwithin (hrange.2 hcontra)
    rw [hexits] at hfirst
    rw [hfailure, hfailures, hheight, hfirst.unique hother]

end EndsByHeight

/-! ## Interpreters -/

namespace Interpreter

theorem interpret_endsByHeight (interpreter : Interpreter Float32) (root : State Float32)
    (word : Word) :
    EndsByHeight interpreter.settings.maxStackDepth (word.map interpreter.convention.op)
      fun count ↦ interpreter.interpret (word.take count) root := by
  have hends := Walk.placements_endsByHeight interpreter.settings root
    (interpreter.instructions word)
  have hops : Instruction.ops (interpreter.instructions word) =
      word.map interpreter.convention.op := by
    simp [Instruction.ops, instructions]
  rw [hops] at hends
  simpa only [interpret, instructions, List.map_take] using hends

/-- The operations of modules; their parameters have no part in them. -/
def moduleOps (interpreter : Interpreter Float32) (table : SymbolTable) (modules : List Module) :
    List (Op Float32) :=
  modules.map fun module ↦ (interpreter.convention.opMap table)[module.symbol]?.getD .ignore

theorem interpretModules_endsByHeight (interpreter : Interpreter Float32) (table : SymbolTable)
    (modules : List Module) (root : State Float32) :
    EndsByHeight interpreter.settings.maxStackDepth (interpreter.moduleOps table modules)
      fun count ↦ interpreter.interpretModules (modules.take count) table root := by
  have hends := Walk.placements_endsByHeight interpreter.settings root
    (modules.map (Module.instruction (interpreter.convention.opMap table)))
  have hops : Instruction.ops
      (modules.map (Module.instruction (interpreter.convention.opMap table))) =
        interpreter.moduleOps table modules := by
    simp [Instruction.ops, moduleOps, Module.instruction]
  rw [hops] at hends
  simpa only [interpretModules, List.map_take] using hends

/-- Words and modules are interpreted to the end exactly when their heights allow it. Otherwise the
first exit determines the fault, its position and the placements that are kept, and runs with the
same brackets and depth fail alike from all states and with all lengths, angles and parameters. -/
theorem interpretation_ends_by_height (interpreter : Interpreter Float32) (root : State Float32) :
    (∀ word : Word,
      EndsByHeight interpreter.settings.maxStackDepth (word.map interpreter.convention.op)
        fun count ↦ interpreter.interpret (word.take count) root) ∧
    (∀ (table : SymbolTable) (modules : List Module),
      EndsByHeight interpreter.settings.maxStackDepth (interpreter.moduleOps table modules)
        fun count ↦ interpreter.interpretModules (modules.take count) table root) ∧
    ∀ (other : Interpreter Float32) (otherRoot : State Float32),
      other.settings.maxStackDepth = interpreter.settings.maxStackDepth →
      (∀ word : Word,
        brackets (word.map other.convention.op) = brackets (word.map interpreter.convention.op) →
        failure? (other.interpret word otherRoot) = failure? (interpreter.interpret word root)) ∧
      ∀ (table : SymbolTable) (modules others : List Module),
        brackets (other.moduleOps table others) = brackets (interpreter.moduleOps table modules) →
        failure? (other.interpretModules others table otherRoot) =
          failure? (interpreter.interpretModules modules table root) := by
  refine ⟨interpreter.interpret_endsByHeight root,
    fun table modules ↦ interpreter.interpretModules_endsByHeight table modules root, ?_⟩
  intro other otherRoot hdepth
  constructor
  · intro word hsame
    have hother := other.interpret_endsByHeight otherRoot word
    rw [hdepth] at hother
    simpa using hother.failure?_congr (interpreter.interpret_endsByHeight root word) hsame
  · intro table modules others hsame
    have hother := other.interpretModules_endsByHeight table others otherRoot
    rw [hdepth] at hother
    simpa [moduleOps] using
      hother.failure?_congr (interpreter.interpretModules_endsByHeight table modules root) hsame

/-- Under the customary convention, without branches inside branches. -/
def shallow : Interpreter Float32 :=
  ⟨{ Settings.default with maxStackDepth := 1 }, Convention.standard⟩

/-- Other lengths and angles, and the ornament drawn as a branch, at the same depth. -/
def restyled : Interpreter Float32 :=
  ⟨⟨⟨1, -2, 0⟩, 3, 0, 2, 1⟩, Convention.standard.set 'A' .draw⟩

def bracketNames : SymbolTable := SymbolTable.ofNames [['['], ['[', '['], ['F'], [']'], ['A']]

/-- A word that is interpreted to its end, one that opens a branch inside a branch, and modules that
close one too many behind the name of two symbols and an unknown number. The other interpreter fails
like the first one, also if these two numbers stand where it had drawings. -/
theorem interpretation_ends_by_height_shallow :
    (∃ placed, shallow.interpret "F[A]F".toList shallow.root = .ok placed) ∧
    failure? (restyled.interpret "F[A[F".toList restyled.root) = some (.stackOverflow 1, 3) ∧
    failure? (restyled.interpretModules [⟨2, [-5]⟩, ⟨1, []⟩, ⟨9, [2]⟩, ⟨3, []⟩] bracketNames
      restyled.root) = some (.unmatchedPop, 3) := by
  obtain ⟨hwords, -, hothers⟩ := interpretation_ends_by_height shallow shallow.root
  obtain ⟨hword, hmodule⟩ := hothers restyled restyled.root rfl
  refine ⟨?_, ?_, ?_⟩
  · exact (hwords "F[A]F".toList).complete_iff.2 (by decide)
  · rw [hword "F[A[F".toList (by decide)]
    rfl
  · rw [hmodule bracketNames [⟨2, []⟩, ⟨4, []⟩, ⟨2, [1]⟩, ⟨3, []⟩] _ (by decide)]
    rfl

end Interpreter

end PlantGrowth.Turtle
