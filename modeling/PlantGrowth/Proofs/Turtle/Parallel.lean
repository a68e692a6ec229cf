import Mathlib.Data.List.Forall2
import PlantGrowth.Proofs.Turtle.Walk

/-!
# Parallel walks

Two walks over the same instructions open and close their branches together, wherever they start.
A relation that holds between the starting states, and that every instruction keeps, holds between
the turtles and between all remembered states ever after. So the walks are interrupted together, and
what they place from related states corresponds one by one. A walk beside itself is the case of a
property that all its states have.
-/

namespace PlantGrowth.Turtle

open Scene

/-! ## Runs that end alike -/

section Runs

variable {α β : Type}

/-- Both runs are complete, or the same fault interrupts them at the same position. -/
inductive EndAlike (complete : β → β → Prop) (like : Placement α → Placement α → Prop) :
    Except (Interruption α) β → Except (Interruption α) β → Prop
  | complete {first second : β} (hcomplete : complete first second) :
    EndAlike complete like (.ok first) (.ok second)
  | interrupted (fault : Fault) (position : ℕ) {first second : List (Placement α)}
    (hplaced : List.Forall₂ like first second) :
    EndAlike complete like (.error ⟨fault, position, first⟩) (.error ⟨fault, position, second⟩)

/-- The runs end alike, and their placements correspond one by one. -/
def PlaceAlike (like : Placement α → Placement α → Prop) :
    Except (Interruption α) (List (Placement α)) → Except (Interruption α) (List (Placement α)) →
      Prop :=
  EndAlike (List.Forall₂ like) like

/-- The placements of a run, up to its interruption if there is one. -/
def placedBy : Except (Interruption α) (List (Placement α)) → List (Placement α)
  | .ok placed => placed
  | .error interruption => interruption.placements

variable {like : Placement α → Placement α → Prop}
  {first second : Except (Interruption α) (List (Placement α))}

theorem PlaceAlike.placedBy (halike : PlaceAlike like first second) :
    List.Forall₂ like (placedBy first) (placedBy second) := by
  cases halike with
  | complete hplaced => exact hplaced
  | interrupted fault position hplaced => exact hplaced

theorem PlaceAlike.mono {other : Placement α → Placement α → Prop}
    (hmono : ∀ first second, like first second → other first second)
    (halike : PlaceAlike like first second) : PlaceAlike other first second := by
  cases halike with
  | complete hplaced => exact .complete (hplaced.imp hmono)
  | interrupted fault position hplaced => exact .interrupted fault position (hplaced.imp hmono)

end Runs

/-- The turtles and all remembered states are related, and the placements correspond. -/
structure Walk.Parallel {α : Type} (near : State α → State α → Prop)
    (like : Placement α → Placement α → Prop) (first second : Walk α) : Prop where
  turtle : near first.turtle second.turtle
  stack : List.Forall₂ near first.stack second.stack
  placed : List.Forall₂ like first.placed.toList second.placed.toList

theorem Walk.parallel_start {α : Type} {near : State α → State α → Prop}
    {like : Placement α → Placement α → Prop} {root other : State α} (hroots : near root other) :
    Parallel near like (start root) (start other) :=
  ⟨hroots, List.Forall₂.nil, List.Forall₂.nil⟩

/-! ## Walks -/

variable {α : Type} [Mul α] [Elementary α]
  [Add α] [Sub α] [Div α] [Neg α] [OfNat α 0] [OfNat α 1] [OfNat α 2]

/-- Instructions lead from related states to related states, and place alike from them. -/
structure Kept (shrinkFactor : α) (near : State α → State α → Prop)
    (like : Placement α → Placement α → Prop) : Prop where
  advance : ∀ {first second : State α} (instruction : Instruction α), near first second →
    near (first.advance shrinkFactor instruction) (second.advance shrinkFactor instruction)
  emit? : ∀ {first second : State α} (instruction : Instruction α), near first second →
    List.Forall₂ like (first.emit? instruction).toList (second.emit? instruction).toList

namespace Walk

variable {settings : Settings α} {near : State α → State α → Prop}
  {like : Placement α → Placement α → Prop} {first second : Walk α}

theorem Parallel.step_plain (hkept : Kept settings.shrinkFactor near like)
    (hparallel : Parallel near like first second) {instruction : Instruction α}
    (hop : instruction.op.Plain) :
    ∃ next other, first.step settings instruction = .ok next ∧
      second.step settings instruction = .ok other ∧ Parallel near like next other := by
  have hfirst : first.step settings instruction = .ok _ := Walk.step_plain hop
  have hsecond : second.step settings instruction = .ok _ := Walk.step_plain hop
  refine ⟨_, _, hfirst, hsecond, hkept.advance instruction hparallel.turtle, hparallel.stack, ?_⟩
  rw [placed_of_step hfirst, placed_of_step hsecond]
  exact List.rel_append hparallel.placed (hkept.emit? instruction hparallel.turtle)

/-- Parallel walks make every step together or fail together. -/
theorem Parallel.step (hkept : Kept settings.shrinkFactor near like)
    (hparallel : Parallel near like first second) (instruction : Instruction α) :
    (∃ next other, first.step settings instruction = .ok next ∧
      second.step settings instruction = .ok other ∧ Parallel near like next other) ∨
    ∃ fault, first.step settings instruction = .error fault ∧
      second.step settings instruction = .error fault := by
  have hheight := hparallel.stack.length_eq
  rcases instruction.op.push_or_pop_or_plain with hop | hop | hop
  · rcases Nat.lt_or_ge first.stack.length settings.maxStackDepth with hroom | hfull
    · exact Or.inl ⟨_, _, step_push hop hroom, step_push hop (hheight ▸ hroom),
        hparallel.turtle, .cons hparallel.turtle hparallel.stack, hparallel.placed⟩
    · exact Or.inr ⟨_, step_push_full hop hfull, step_push_full hop (hheight ▸ hfull)⟩
  · have hstack := hparallel.stack
    cases hfirst : first.stack with
    | nil =>
      rw [hfirst, List.forall₂_nil_left_iff] at hstack
      exact Or.inr ⟨_, step_pop_nil hop hfirst, step_pop_nil hop hstack⟩
    | cons remembered rest =>
      rw [hfirst, List.forall₂_cons_left_iff] at hstack
      obtain ⟨other, others, hnear, hrest, hsecond⟩ := hstack
      exact Or.inl ⟨_, _, step_pop hop hfirst, step_pop hop hsecond, hnear, hrest,
        hparallel.placed⟩
  · exact Or.inl (hparallel.step_plain hkept hop)

theorem Parallel.follow (hkept : Kept settings.shrinkFactor near like)
    (hparallel : Parallel near like first second) (position : ℕ)
    (instructions : List (Instruction α)) :
    EndAlike (Parallel near like) like (follow settings position first instructions)
      (follow settings position second instructions) := by
  induction instructions generalizing position first second with
  | nil => exact .complete hparallel
  | cons instruction rest ih =>
    rw [Walk.follow, Walk.follow]
    rcases hparallel.step hkept instruction with
      ⟨next, other, hfirst, hsecond, hnext⟩ | ⟨fault, hfirst, hsecond⟩
    · rw [hfirst, hsecond]
      exact ih hnext (position + 1)
    · rw [hfirst, hsecond]
      exact .interrupted fault position hparallel.placed

/-- Walks from related states place alike, whole or up to the same interruption. -/
theorem placements_alike (hkept : Kept settings.shrinkFactor near like) {root other : State α}
    (hroots : near root other) (instructions : List (Instruction α)) :
    PlaceAlike like (placements settings root instructions)
      (placements settings other instructions) := by
  have hstart : Parallel near like (start root) (start other) := parallel_start hroots
  have halike := hstart.follow hkept 0 instructions
  rw [placements, placements]
  generalize Walk.follow settings 0 (start root) instructions = run at halike ⊢
  generalize Walk.follow settings 0 (start other) instructions = otherRun at halike ⊢
  cases halike with
  | complete hparallel => exact .complete hparallel.placed
  | interrupted fault position hplaced => exact .interrupted fault position hplaced

end Walk

/-! ## Properties of all states -/

/-- Instructions keep a property of states, and all that they place from such states has another. -/
structure Invariant (shrinkFactor : α) (ofState : State α → Prop) (ofPlacement : Placement α → Prop) :
    Prop where
  advance : ∀ {state : State α} (instruction : Instruction α), ofState state →
    ofState (state.advance shrinkFactor instruction)
  emit? : ∀ {state : State α} (instruction : Instruction α), ofState state →
    ∀ placement ∈ state.emit? instruction, ofPlacement placement

namespace Invariant

variable {settings : Settings α} {ofState : State α → Prop} {ofPlacement : Placement α → Prop}
  {root : State α} {instructions : List (Instruction α)}

theorem kept {shrinkFactor : α} (hinvariant : Invariant shrinkFactor ofState ofPlacement) :
    Kept shrinkFactor (fun first second ↦ first = second ∧ ofState first)
      fun first second ↦ first = second ∧ ofPlacement first := by
  constructor
  · intro first second instruction hnear
    obtain ⟨rfl, hstate⟩ := hnear
    exact ⟨rfl, hinvariant.advance instruction hstate⟩
  · intro first second instruction hnear
    obtain ⟨rfl, hstate⟩ := hnear
    rw [List.forall₂_same]
    intro placement hplacement
    exact ⟨rfl, hinvariant.emit? instruction hstate placement (by simpa using hplacement)⟩

/-- The property holds of the turtle and of all remembered states. -/
theorem of_follow (hinvariant : Invariant settings.shrinkFactor ofState ofPlacement)
    (hroot : ofState root) {walk : Walk α}
    (hfollow : Walk.follow settings 0 (Walk.start root) instructions = .ok walk) :
    ofState walk.turtle ∧ ∀ state ∈ walk.stack, ofState state := by
  have halike := (Walk.parallel_start ⟨rfl, hroot⟩).follow hinvariant.kept 0 instructions
  rw [hfollow] at halike
  cases halike with
  | complete hparallel =>
    have hstack := hparallel.stack
    rw [List.forall₂_same] at hstack
    exact ⟨hparallel.turtle.2, fun state hstate ↦ (hstack state hstate).2⟩

theorem of_placedBy (hinvariant : Invariant settings.shrinkFactor ofState ofPlacement)
    (hroot : ofState root) :
    ∀ placement ∈ placedBy (Walk.placements settings root instructions),
      ofPlacement placement := by
  have halike := Walk.placements_alike hinvariant.kept ⟨rfl, hroot⟩ instructions
  have hplaced := halike.placedBy
  rw [List.forall₂_same] at hplaced
  exact fun placement hplacement ↦ (hplaced placement hplacement).2

end Invariant

end PlantGrowth.Turtle
