import PlantGrowth.Proofs.Turtle.Height
import PlantGrowth.Turtle.Walk

/-!
# Steps and walks

What each kind of operation does to a walk, and how walks over parts of a list of instructions
join. The number of remembered states is the height of the operations carried out.
-/

namespace PlantGrowth.Turtle

namespace Instruction

variable {α : Type}

/-- The operations of a list of instructions. -/
def ops (instructions : List (Instruction α)) : List (Op α) := instructions.map Instruction.op

@[simp]
theorem ops_nil : ops ([] : List (Instruction α)) = [] := rfl

@[simp]
theorem ops_take (count : ℕ) (instructions : List (Instruction α)) :
    ops (instructions.take count) = (ops instructions).take count :=
  List.map_take

@[simp]
theorem length_ops (instructions : List (Instruction α)) :
    (ops instructions).length = instructions.length :=
  List.length_map _

theorem getElem_ops {instructions : List (Instruction α)} {position : ℕ}
    (hposition : position < instructions.length) (hops : position < (ops instructions).length) :
    (ops instructions)[position] = instructions[position].op :=
  List.getElem_map _

end Instruction

namespace Walk

open Scene

variable {α : Type} [Mul α] [Elementary α]
  [Add α] [Sub α] [Div α] [Neg α] [OfNat α 0] [OfNat α 1] [OfNat α 2]
  {settings : Settings α} {walk next : Walk α} {instruction : Instruction α}

/-! ## One step -/

theorem step_push (hop : instruction.op = .push)
    (hroom : walk.stack.length < settings.maxStackDepth) :
    walk.step settings instruction = .ok { walk with stack := walk.turtle :: walk.stack } := by
  simp only [step, hop, if_pos hroom]

theorem step_push_full (hop : instruction.op = .push)
    (hfull : settings.maxStackDepth ≤ walk.stack.length) :
    walk.step settings instruction = .error (.stackOverflow settings.maxStackDepth) := by
  simp only [step, hop, if_neg (Nat.not_lt.2 hfull)]

theorem step_pop {remembered : State α} {stack : List (State α)} (hop : instruction.op = .pop)
    (hstack : walk.stack = remembered :: stack) :
    walk.step settings instruction = .ok { walk with turtle := remembered, stack } := by
  simp only [step, hop, hstack]

theorem step_pop_nil (hop : instruction.op = .pop) (hstack : walk.stack = []) :
    walk.step settings instruction = .error .unmatchedPop := by
  simp only [step, hop, hstack]

theorem step_plain (hop : instruction.op.Plain) :
    walk.step settings instruction =
      .ok { walk with
        turtle := walk.turtle.advance settings.shrinkFactor instruction
        placed := (walk.turtle.emit? instruction).elim walk.placed walk.placed.push } := by
  rcases instruction with ⟨op, argument⟩
  cases op <;> first | rfl | simp [Op.Plain, Op.isPush, Op.isPop] at hop

/-- Everything a step that is carried out can do. -/
theorem step_ok_cases (hstep : walk.step settings instruction = .ok next) :
    (instruction.op = .push ∧ walk.stack.length < settings.maxStackDepth ∧
      next = { walk with stack := walk.turtle :: walk.stack }) ∨
    (∃ remembered stack, instruction.op = .pop ∧ walk.stack = remembered :: stack ∧
      next = { walk with turtle := remembered, stack }) ∨
    (instruction.op.Plain ∧
      next = { walk with
        turtle := walk.turtle.advance settings.shrinkFactor instruction
        placed := (walk.turtle.emit? instruction).elim walk.placed walk.placed.push }) := by
  rcases instruction.op.push_or_pop_or_plain with hop | hop | hop
  · rcases Nat.lt_or_ge walk.stack.length settings.maxStackDepth with hroom | hfull
    · rw [step_push hop hroom] at hstep
      cases hstep
      exact Or.inl ⟨hop, hroom, rfl⟩
    · rw [step_push_full hop hfull] at hstep
      cases hstep
  · cases hstack : walk.stack with
    | nil =>
      rw [step_pop_nil hop hstack] at hstep
      cases hstep
    | cons remembered stack =>
      rw [step_pop hop hstack] at hstep
      cases hstep
      exact Or.inr (Or.inl ⟨remembered, stack, hop, rfl, rfl⟩)
  · rw [step_plain hop] at hstep
    cases hstep
    exact Or.inr (Or.inr ⟨hop, rfl⟩)

/-- An opening that is carried out remembers the turtle and changes nothing else. -/
theorem eq_of_step_push (hop : instruction.op = .push)
    (hstep : walk.step settings instruction = .ok next) :
    next = { walk with stack := walk.turtle :: walk.stack } := by
  rcases step_ok_cases hstep with ⟨-, -, hnext⟩ | ⟨remembered, stack, hpop, -, -⟩ | ⟨hplain, -⟩
  · exact hnext
  · rw [hop] at hpop
    cases hpop
  · simp [hop, Op.Plain, Op.isPush] at hplain

/-- A step adds what the instruction emits at the state before it. -/
theorem placed_of_step (hstep : walk.step settings instruction = .ok next) :
    next.placed.toList = walk.placed.toList ++ (walk.turtle.emit? instruction).toList := by
  rcases step_ok_cases hstep with ⟨hop, _, rfl⟩ | ⟨remembered, stack, hop, _, rfl⟩ | ⟨_, rfl⟩
  · simp [State.emit?, hop]
  · simp [State.emit?, hop]
  · cases walk.turtle.emit? instruction <;> simp

theorem stack_length_of_step (hstep : walk.step settings instruction = .ok next) :
    (next.stack.length : ℤ) = walk.stack.length + rise [instruction.op] := by
  rcases step_ok_cases hstep with ⟨hop, _, rfl⟩ | ⟨remembered, stack, hop, hstack, rfl⟩ | ⟨hop, rfl⟩
  · simp [hop]
  · simp only [hop, hstack, rise_pop, List.length_cons]
    omega
  · simp [rise_of_plain hop]

/-- A step is carried out if it leaves the number of remembered states in its range. -/
theorem exists_step (hlow : 0 ≤ (walk.stack.length : ℤ) + rise [instruction.op])
    (hhigh : (walk.stack.length : ℤ) + rise [instruction.op] ≤ settings.maxStackDepth) :
    ∃ next, walk.step settings instruction = .ok next := by
  rcases instruction.op.push_or_pop_or_plain with hop | hop | hop
  · rw [hop, rise_push] at hhigh
    exact ⟨_, step_push hop (by omega)⟩
  · cases hstack : walk.stack with
    | nil => simp [hop, hstack] at hlow
    | cons remembered stack => exact ⟨_, step_pop hop hstack⟩
  · exact ⟨_, step_plain hop⟩

/-! ## Walks -/

theorem follow_append (settings : Settings α) (position : ℕ) (walk : Walk α)
    (first second : List (Instruction α)) :
    follow settings position walk (first ++ second) =
      (follow settings position walk first).bind fun next ↦
        follow settings (position + first.length) next second := by
  induction first generalizing position walk with
  | nil => rfl
  | cons instruction rest ih =>
    rw [List.cons_append, follow, follow]
    cases walk.step settings instruction with
    | error fault => rfl
    | ok next =>
      have hposition : position + 1 + rest.length = position + (instruction :: rest).length := by
        rw [List.length_cons]
        omega
      simp only [ih, hposition]

theorem follow_append_eq_ok {position : ℕ} {first second : List (Instruction α)}
    (hfollow : follow settings position walk (first ++ second) = .ok next) :
    ∃ middle, follow settings position walk first = .ok middle ∧
      follow settings (position + first.length) middle second = .ok next := by
  rw [follow_append] at hfollow
  cases hfirst : follow settings position walk first with
  | error interruption =>
    rw [hfirst] at hfollow
    cases hfollow
  | ok middle =>
    rw [hfirst] at hfollow
    exact ⟨middle, rfl, hfollow⟩

theorem follow_cons_eq_ok {position : ℕ} {rest : List (Instruction α)}
    (hfollow : follow settings position walk (instruction :: rest) = .ok next) :
    ∃ middle, walk.step settings instruction = .ok middle ∧
      follow settings (position + 1) middle rest = .ok next := by
  rw [follow] at hfollow
  cases hstep : walk.step settings instruction with
  | error fault =>
    rw [hstep] at hfollow
    cases hfollow
  | ok middle =>
    rw [hstep] at hfollow
    exact ⟨middle, rfl, hfollow⟩

/-- A walk over one more instruction is a walk and a step. -/
theorem follow_concat_eq_ok {position : ℕ} {instructions : List (Instruction α)}
    (hfollow : follow settings position walk (instructions ++ [instruction]) = .ok next) :
    ∃ middle, follow settings position walk instructions = .ok middle ∧
      middle.step settings instruction = .ok next := by
  obtain ⟨middle, hfirst, hlast⟩ := follow_append_eq_ok hfollow
  obtain ⟨last, hstep, hend⟩ := follow_cons_eq_ok hlast
  cases hend
  exact ⟨middle, hfirst, hstep⟩

theorem stack_length_of_follow {position : ℕ} {instructions : List (Instruction α)}
    (hfollow : follow settings position walk instructions = .ok next) :
    (next.stack.length : ℤ) = walk.stack.length + rise (Instruction.ops instructions) := by
  induction instructions generalizing position walk with
  | nil =>
    cases hfollow
    simp
  | cons instruction rest ih =>
    obtain ⟨middle, hstep, hrest⟩ := follow_cons_eq_ok hfollow
    have hrise : rise (Instruction.ops (instruction :: rest)) =
        rise [instruction.op] + rise (Instruction.ops rest) := rise_cons _ _
    have hmiddle := stack_length_of_step hstep
    have hlast := ih hrest
    omega

/-- Instructions that close only branches of their own leave the states below untouched. -/
theorem exists_stack_above {position : ℕ} {top base : List (State α)}
    {instructions : List (Instruction α)} (hstack : walk.stack = top ++ base)
    (hlow : ∀ count ≤ instructions.length,
      0 ≤ (top.length : ℤ) + height (Instruction.ops instructions) count)
    (hfollow : follow settings position walk instructions = .ok next) :
    ∃ above, next.stack = above ++ base := by
  induction instructions generalizing position walk top with
  | nil =>
    cases hfollow
    exact ⟨top, hstack⟩
  | cons instruction rest ih =>
    obtain ⟨middle, hstep, hrest⟩ := follow_cons_eq_ok hfollow
    have hshift (count : ℕ) : height (Instruction.ops (instruction :: rest)) (count + 1) =
        rise [instruction.op] + height (Instruction.ops rest) count :=
      height_cons_succ _ _ _
    have hlater {newTop : List (State α)}
        (hlength : (newTop.length : ℤ) = top.length + rise [instruction.op]) :
        ∀ count ≤ rest.length, 0 ≤ (newTop.length : ℤ) + height (Instruction.ops rest) count := by
      intro count hcount
      have hheight := hlow (count + 1) (by simpa using hcount)
      rw [hshift] at hheight
      omega
    rcases step_ok_cases hstep with
      ⟨hop, _, rfl⟩ | ⟨remembered, stack, hop, hpopped, rfl⟩ | ⟨hop, rfl⟩
    · refine @ih _ _ (walk.turtle :: top) ?_ (hlater (by simp [hop])) hrest
      simp [hstack]
    · have hfirst := hlow 1 (by simp)
      rw [hshift 0, height_zero, hop, rise_pop] at hfirst
      cases top with
      | nil => simp at hfirst
      | cons state others =>
        rw [hstack] at hpopped
        obtain ⟨-, rfl⟩ := List.cons.inj hpopped
        refine @ih _ _ others rfl (hlater ?_) hrest
        simp only [hop, rise_pop, List.length_cons]
        omega
    · refine @ih _ _ top ?_ (hlater (by simp [rise_of_plain hop])) hrest
      exact hstack

/-- While the heights stay in the range that is left, a walk goes on. -/
theorem exists_follow (position : ℕ) {instructions : List (Instruction α)}
    (hrange : ∀ count ≤ instructions.length,
      0 ≤ (walk.stack.length : ℤ) + height (Instruction.ops instructions) count ∧
        (walk.stack.length : ℤ) + height (Instruction.ops instructions) count ≤
          settings.maxStackDepth) :
    ∃ last, follow settings position walk instructions = .ok last ∧
      (last.stack.length : ℤ) = walk.stack.length + rise (Instruction.ops instructions) := by
  induction instructions generalizing position walk with
  | nil => exact ⟨walk, rfl, by simp⟩
  | cons instruction rest ih =>
    have hshift (count : ℕ) : height (Instruction.ops (instruction :: rest)) (count + 1) =
        rise [instruction.op] + height (Instruction.ops rest) count :=
      height_cons_succ _ _ _
    have hfirst := hrange 1 (by simp)
    rw [hshift 0, height_zero, Int.add_zero] at hfirst
    obtain ⟨next, hstep⟩ := exists_step hfirst.1 hfirst.2
    have hlength := stack_length_of_step hstep
    have hrest : ∀ count ≤ rest.length,
        0 ≤ (next.stack.length : ℤ) + height (Instruction.ops rest) count ∧
          (next.stack.length : ℤ) + height (Instruction.ops rest) count ≤
            settings.maxStackDepth := by
      intro count hcount
      have hlater := hrange (count + 1) (by simpa using hcount)
      rw [hshift] at hlater
      omega
    obtain ⟨last, hfollow, hlast⟩ := ih (position + 1) hrest
    refine ⟨last, by rw [follow, hstep]; exact hfollow, ?_⟩
    have hrise : rise (Instruction.ops (instruction :: rest)) =
        rise [instruction.op] + rise (Instruction.ops rest) := rise_cons _ _
    omega

theorem placements_eq_ok_iff {root : State α} {instructions : List (Instruction α)}
    {placed : List (Placement α)} :
    placements settings root instructions = .ok placed ↔
      ∃ last, follow settings 0 (start root) instructions = .ok last ∧
        last.placed.toList = placed := by
  rw [placements]
  cases follow settings 0 (start root) instructions <;> simp [Except.map]

theorem placements_eq_error_iff {root : State α} {instructions : List (Instruction α)}
    {interruption : Interruption α} :
    placements settings root instructions = .error interruption ↔
      follow settings 0 (start root) instructions = .error interruption := by
  rw [placements]
  cases follow settings 0 (start root) instructions <;> simp [Except.map]

end Walk

end PlantGrowth.Turtle
