import PlantGrowth.Proofs.Turtle.ActivePath

/-!
# Closed branches as plants of their own

A walk that closes only branches of its own never looks at what lies below it, so it does the same
over any remembered states that leave as much room and after any earlier placements. A closed branch
therefore places what its inside places alone from the branch point, what follows does not notice
it, and neighbouring closed branches change places along with their placements.
-/

namespace PlantGrowth.Turtle

open Scene

namespace Walk

variable {α : Type}

/-! ## Walks over other walks -/

/-- The walk with remembered states below its own and placements before its own. -/
def above (walk : Walk α) (base : List (State α)) (before : Array (Placement α)) : Walk α :=
  { walk with stack := walk.stack ++ base, placed := before ++ walk.placed }

theorem eq_above (walk : Walk α) :
    walk = Walk.above ⟨walk.turtle, walk.stack, #[]⟩ [] walk.placed := by
  simp [above]

variable [Mul α] [Elementary α]
  [Add α] [Sub α] [Div α] [Neg α] [OfNat α 0] [OfNat α 1] [OfNat α 2]
  {settings : Settings α} {walk last : Walk α} {instruction : Instruction α}
  {base : List (State α)} {before : Array (Placement α)}

/-- A step that does not close a branch of the base leaves the base as it is and can be made over
any base that is no higher. -/
theorem step_above (hlow : 0 ≤ (walk.stack.length : ℤ) + rise [instruction.op])
    (hstep : (walk.above base before).step settings instruction = .ok last) :
    ∃ own : Walk α, last = own.above base before ∧
      ∀ (other : List (State α)) (earlier : Array (Placement α)), other.length ≤ base.length →
        (walk.above other earlier).step settings instruction = .ok (own.above other earlier) := by
  rcases step_ok_cases hstep with ⟨hop, hroom, rfl⟩ | ⟨remembered, stack, hop, hstack, rfl⟩ | ⟨hop, rfl⟩
  · refine ⟨{ walk with stack := walk.turtle :: walk.stack }, rfl, ?_⟩
    intro other earlier hother
    have hless : (walk.above other earlier).stack.length < settings.maxStackDepth := by
      simp only [above, List.length_append] at hroom ⊢
      omega
    exact step_push hop hless
  · cases hown : walk.stack with
    | nil => simp [hown, hop] at hlow
    | cons state rest =>
      simp only [above, hown, List.cons_append, List.cons.injEq] at hstack
      obtain ⟨rfl, rfl⟩ := hstack
      refine ⟨{ walk with turtle := state, stack := rest }, rfl, ?_⟩
      intro other earlier _
      have hpopped : (walk.above other earlier).stack = state :: (rest ++ other) := by
        simp [above, hown]
      exact step_pop hop hpopped
  · refine ⟨{ walk with
      turtle := walk.turtle.advance settings.shrinkFactor instruction
      placed := (walk.turtle.emit? instruction).elim walk.placed walk.placed.push }, ?_, ?_⟩
    · cases hemit : walk.turtle.emit? instruction <;> simp [above, hemit]
    · intro other earlier _
      rw [step_plain hop]
      cases hemit : walk.turtle.emit? instruction <;> simp [above, hemit]

theorem follow_above {position : ℕ} {instructions : List (Instruction α)}
    (hlow : ∀ count ≤ instructions.length,
      0 ≤ (walk.stack.length : ℤ) + height (Instruction.ops instructions) count)
    (hfollow : follow settings position (walk.above base before) instructions = .ok last) :
    ∃ own : Walk α, last = own.above base before ∧
      ∀ (position : ℕ) (other : List (State α)) (earlier : Array (Placement α)),
        other.length ≤ base.length →
          follow settings position (walk.above other earlier) instructions =
            .ok (own.above other earlier) := by
  -- The walk never comes down to the states under it, so every step has its twin above other ones.
  induction instructions generalizing position walk with
  | nil =>
    cases hfollow
    exact ⟨walk, rfl, fun _ _ _ _ ↦ rfl⟩
  | cons instruction rest ih =>
    obtain ⟨middle, hstep, hrest⟩ := follow_cons_eq_ok hfollow
    have hshift (count : ℕ) : height (Instruction.ops (instruction :: rest)) (count + 1) =
        rise [instruction.op] + height (Instruction.ops rest) count :=
      height_cons_succ _ _ _
    have hfirst := hlow 1 (by simp)
    rw [hshift 0, height_zero, Int.add_zero] at hfirst
    obtain ⟨next, rfl, hnext⟩ := step_above hfirst hstep
    have hlength := stack_length_of_step hstep
    have hlater : ∀ count ≤ rest.length,
        0 ≤ (next.stack.length : ℤ) + height (Instruction.ops rest) count := by
      intro count hcount
      have hheight := hlow (count + 1) (by simpa using hcount)
      rw [hshift] at hheight
      simp only [above, List.length_append] at hlength
      omega
    obtain ⟨own, hlast, hown⟩ := ih hlater hrest
    refine ⟨own, hlast, ?_⟩
    intro position other earlier hother
    rw [follow, hnext other earlier hother]
    exact hown (position + 1) other earlier hother

/-- A walk that is carried out never closes more branches than are open. -/
theorem height_of_follow {position : ℕ} {instructions : List (Instruction α)}
    (hfollow : follow settings position walk instructions = .ok last) (count : ℕ) :
    0 ≤ (walk.stack.length : ℤ) + height (Instruction.ops instructions) count := by
  rw [← List.take_append_drop count instructions] at hfollow
  obtain ⟨middle, hfirst, -⟩ := follow_append_eq_ok hfollow
  have hlength := stack_length_of_follow hfirst
  rw [Instruction.ops_take] at hlength
  rw [height]
  omega

/-- Earlier placements have no influence on what a walk does. -/
theorem follow_after {position : ℕ} {instructions : List (Instruction α)}
    (hfollow : follow settings position walk instructions = .ok last) :
    ∃ placed, last.placed = walk.placed ++ placed ∧
      ∀ (position : ℕ) (earlier : Array (Placement α)),
        follow settings position { walk with placed := earlier } instructions =
          .ok { last with placed := earlier ++ placed } := by
  have hheight := height_of_follow hfollow
  rw [eq_above walk] at hfollow
  obtain ⟨own, rfl, hown⟩ := follow_above (fun count _ ↦ by exact hheight count) hfollow
  refine ⟨own.placed, rfl, ?_⟩
  intro position earlier
  simpa [above] using hown position [] earlier (Nat.le_refl _)

/-! ## Closed branches -/

/-- The instructions of a branch, between an opening and a closing. -/
def enclosed (inner : List (Instruction α)) : List (Instruction α) :=
  ⟨.push, none⟩ :: (inner ++ [⟨.pop, none⟩])

/-- A closed branch adds to a walk what its inside places alone from the branch point, whatever was
placed before, and changes nothing else. -/
theorem follow_enclosed {position : ℕ} {inner : List (Instruction α)}
    (hbalanced : Balanced (Instruction.ops inner))
    (hfollow : follow settings position walk (enclosed inner) = .ok last) :
    ∃ own, follow settings 0 (start walk.turtle) inner = .ok own ∧
      last = { walk with placed := walk.placed ++ own.placed } ∧
      ∀ (position : ℕ) (earlier : Array (Placement α)),
        follow settings position { walk with placed := earlier } (enclosed inner) =
          .ok { walk with placed := earlier ++ own.placed } := by
  obtain ⟨opened, hopen, hrest⟩ := follow_cons_eq_ok hfollow
  obtain ⟨inside, hinside, hclose⟩ := follow_concat_eq_ok hrest
  have hopened : opened = (start walk.turtle).above (walk.turtle :: walk.stack) walk.placed := by
    rw [eq_of_step_push rfl hopen]
    simp [above, start]
  rw [hopened] at hinside
  obtain ⟨own, rfl, hown⟩ := follow_above
    (fun count hcount ↦ by simpa [start] using hbalanced.1 count (by simpa using hcount)) hinside
  have halone : follow settings 0 (start walk.turtle) inner = .ok own := by
    simpa [above] using hown 0 [] #[] (Nat.zero_le _)
  have hempty : own.stack = [] := stack_of_follow_balanced hbalanced halone
  have hstack : (own.above (walk.turtle :: walk.stack) walk.placed).stack =
      walk.turtle :: walk.stack := by
    simp [above, hempty]
  have hlast : last = { walk with placed := walk.placed ++ own.placed } := by
    rw [step_pop rfl hstack] at hclose
    cases hclose
    rfl
  obtain ⟨placed, hplaced, hafter⟩ := follow_after hfollow
  have hsame : own.placed = placed := by
    rw [hlast] at hplaced
    exact (Array.append_right_inj _).1 hplaced
  refine ⟨own, halone, hlast, ?_⟩
  intro position earlier
  rw [hafter, hlast, hsame]

end Walk

/-! ## Interpreters -/

namespace Interpreter

open Walk

variable {α : Type}

/-- A word between an opening and a closing symbol. -/
def bracketed (opening closing : Char) (inner : Word) : Word := opening :: (inner ++ [closing])

theorem instructions_append (interpreter : Interpreter α) (first second : Word) :
    interpreter.instructions (first ++ second) =
      interpreter.instructions first ++ interpreter.instructions second :=
  List.map_append

theorem instructions_bracketed {interpreter : Interpreter α} {opening closing : Char}
    (hopening : interpreter.convention.op opening = .push)
    (hclosing : interpreter.convention.op closing = .pop) (inner : Word) :
    interpreter.instructions (bracketed opening closing inner) =
      enclosed (interpreter.instructions inner) := by
  simp [instructions, bracketed, enclosed, hopening, hclosing]

theorem ops_instructions (interpreter : Interpreter α) (word : Word) :
    Instruction.ops (interpreter.instructions word) = word.map interpreter.convention.op := by
  simp [Instruction.ops, instructions]

variable [Mul α] [Elementary α]
  [Add α] [Sub α] [Div α] [Neg α] [OfNat α 0] [OfNat α 1] [OfNat α 2]

/-- A closed branch places what its inside places alone from the branch point, between what the rest
of the word places without it. Closed branches side by side can change places, and only their
placements change places with them. -/
theorem closed_branches_are_plants (interpreter : Interpreter α) (root : State α)
    (opening closing : Char) (hopening : interpreter.convention.op opening = .push)
    (hclosing : interpreter.convention.op closing = .pop) (before after : Word) :
    (∀ (inner : Word) (placed : List (Placement α)),
      Balanced (inner.map interpreter.convention.op) →
      interpreter.interpret (before ++ bracketed opening closing inner ++ after) root =
        .ok placed →
      ∃ (fork : Walk α) (inside rest : List (Placement α)),
        Walk.follow interpreter.settings 0 (Walk.start root) (interpreter.instructions before) =
          .ok fork ∧
        interpreter.interpret before root = .ok fork.placed.toList ∧
        interpreter.interpret inner fork.turtle = .ok inside ∧
        interpreter.interpret (before ++ after) root = .ok (fork.placed.toList ++ rest) ∧
        placed = fork.placed.toList ++ inside ++ rest) ∧
    (∀ (first second : Word) (placed : List (Placement α)),
      Balanced (first.map interpreter.convention.op) →
      Balanced (second.map interpreter.convention.op) →
      interpreter.interpret (before ++ bracketed opening closing first ++
        bracketed opening closing second ++ after) root = .ok placed →
      ∃ (fork : Walk α) (inFirst inSecond rest : List (Placement α)),
        Walk.follow interpreter.settings 0 (Walk.start root) (interpreter.instructions before) =
          .ok fork ∧
        interpreter.interpret first fork.turtle = .ok inFirst ∧
        interpreter.interpret second fork.turtle = .ok inSecond ∧
        placed = fork.placed.toList ++ inFirst ++ inSecond ++ rest ∧
        interpreter.interpret (before ++ bracketed opening closing second ++
          bracketed opening closing first ++ after) root =
            .ok (fork.placed.toList ++ inSecond ++ inFirst ++ rest)) := by
  simp only [← ops_instructions, interpret, instructions_append, placements_eq_ok_iff,
    instructions_bracketed hopening hclosing]
  constructor
  · intro inner placed hbalanced hplaced
    obtain ⟨last, hfollow, rfl⟩ := hplaced
    obtain ⟨closed, hclosed, hafter⟩ := follow_append_eq_ok hfollow
    obtain ⟨fork, hbefore, hbranch⟩ := follow_append_eq_ok hclosed
    obtain ⟨own, hinner, rfl, -⟩ := follow_enclosed hbalanced hbranch
    obtain ⟨rest, hrest, hagain⟩ := follow_after hafter
    refine ⟨fork, own.placed.toList, rest.toList, hbefore, ⟨fork, hbefore, rfl⟩,
      ⟨own, hinner, rfl⟩, ⟨{ last with placed := fork.placed ++ rest }, ?_, by simp⟩,
      by simp [hrest]⟩
    rw [follow_append, hbefore]
    exact hagain _ fork.placed
  · intro first second placed hfirst hsecond hplaced
    obtain ⟨last, hfollow, rfl⟩ := hplaced
    obtain ⟨both, hboth, hafter⟩ := follow_append_eq_ok hfollow
    obtain ⟨one, hone, hother⟩ := follow_append_eq_ok hboth
    obtain ⟨fork, hbefore, hbranch⟩ := follow_append_eq_ok hone
    obtain ⟨ownFirst, hinFirst, rfl, hagainFirst⟩ := follow_enclosed hfirst hbranch
    obtain ⟨ownSecond, hinSecond, rfl, hagainSecond⟩ := follow_enclosed hsecond hother
    obtain ⟨rest, hrest, hagain⟩ := follow_after hafter
    refine ⟨fork, ownFirst.placed.toList, ownSecond.placed.toList, rest.toList, hbefore,
      ⟨ownFirst, hinFirst, rfl⟩, ⟨ownSecond, hinSecond, rfl⟩, by simp [hrest],
      ⟨{ last with placed := fork.placed ++ ownSecond.placed ++ ownFirst.placed ++ rest }, ?_,
        by simp⟩⟩
    rw [follow_append, follow_append, follow_append, hbefore]
    simp only [Except.bind, hagainSecond, hagainFirst]
    exact hagain _ _

/-- Two closed branches under the customary convention, one of them with a branch inside. -/
theorem closed_branches_are_plants_side_by_side :
    ∃ (fork : Walk Float32) (inFirst inSecond rest : List (Placement Float32)),
      interpret ⟨Settings.default, Convention.standard⟩ "F[+F][-[A]F]A".toList
          Settings.default.root = .ok (fork.placed.toList ++ inFirst ++ inSecond ++ rest) ∧
        interpret ⟨Settings.default, Convention.standard⟩ "F[-[A]F][+F]A".toList
          Settings.default.root = .ok (fork.placed.toList ++ inSecond ++ inFirst ++ rest) := by
  obtain ⟨fork, inFirst, inSecond, rest, -, -, -, hplaced, hexchanged⟩ :=
    (closed_branches_are_plants ⟨Settings.default, Convention.standard⟩ Settings.default.root
      '[' ']' (by decide) (by decide) ['F'] ['A']).2 "+F".toList "-[A]F".toList _
        (by decide) (by decide) rfl
  exact ⟨fork, inFirst, inSecond, rest, congrArg _ hplaced, hexchanged⟩

end Interpreter

end PlantGrowth.Turtle
