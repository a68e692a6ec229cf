import PlantGrowth.Proofs.Turtle.Convention
import PlantGrowth.Proofs.Turtle.Walk
import PlantGrowth.Turtle.Interpreter

/-!
# Idle symbols

An idle instruction leaves a walk as it is, so idle symbols can be put into a word anywhere. The walk
over the padded word passes through the same states, places the same, and is interrupted, if at all,
at the symbol that interrupts the walk over the word, wherever that symbol has come to stand. Words
that differ only in idle symbols therefore place the same.
-/

namespace PlantGrowth.Turtle

open Scene

/-! ## Padded lists -/

section Padded

variable {β γ : Type} {idle : β → Prop} {core padded rest : List β} {head : β} {place : ℕ → ℕ}

/-- A list with idle elements put in anywhere. The elements of the list keep their order, and `place`
says where each of them stands. -/
structure Pads (idle : β → Prop) (core padded : List β) (place : ℕ → ℕ) : Prop where
  kept : ∀ index < core.length, padded[place index]? = core[index]?
  ascending : ∀ later < core.length, ∀ earlier < later, place earlier < place later
  filled : ∀ position < padded.length, (∀ index < core.length, place index ≠ position) →
    ∀ element ∈ padded[position]?, idle element

instance [DecidableEq β] [DecidablePred idle] : Decidable (Pads idle core padded place) :=
  decidable_of_iff
    ((∀ index < core.length, padded[place index]? = core[index]?) ∧
      (∀ later < core.length, ∀ earlier < later, place earlier < place later) ∧
      ∀ position < padded.length, (∀ index < core.length, place index ≠ position) →
        ∀ element ∈ padded[position]?, idle element)
    ⟨fun ⟨kept, ascending, filled⟩ ↦ ⟨kept, ascending, filled⟩,
      fun ⟨kept, ascending, filled⟩ ↦ ⟨kept, ascending, filled⟩⟩

namespace Pads

theorem core_eq_nil (hpads : Pads idle core [] place) : core = [] := by
  cases core with
  | nil => rfl
  | cons head rest =>
    have hkept := hpads.kept 0 (by simp)
    simp at hkept

/-- An element in front of all elements of the list is idle. -/
theorem of_cons_filled (hpads : Pads idle core (head :: rest) place)
    (hbehind : ∀ index < core.length, place index ≠ 0) :
    idle head ∧ ∃ later, Pads idle core rest later ∧
      ∀ index < core.length, place index = later index + 1 := by
  have hplace : ∀ index < core.length, place index = place index - 1 + 1 := by
    intro index hindex
    exact (Nat.sub_one_add_one (hbehind index hindex)).symm
  refine ⟨hpads.filled 0 (by simp) hbehind head rfl, fun index ↦ place index - 1, ?_, hplace⟩
  constructor
  · intro index hindex
    have hkept := hpads.kept index hindex
    rw [hplace index hindex, List.getElem?_cons_succ] at hkept
    exact hkept
  · intro later hlater earlier hearlier
    have hascending := hpads.ascending later hlater earlier hearlier
    have := hplace earlier (hearlier.trans hlater)
    omega
  · intro position hposition hother
    apply hpads.filled (position + 1) (by simpa using hposition)
    intro index hindex hsame
    exact hother index hindex (by omega)

/-- The element at which the first element of the list stands is that element. -/
theorem of_cons_kept {first : β} (hpads : Pads idle (first :: core) (head :: rest) place)
    (hfront : place 0 = 0) :
    first = head ∧ ∃ later, Pads idle core rest later ∧
      ∀ index < core.length, place (index + 1) = later index + 1 := by
  have hplace : ∀ index < core.length, place (index + 1) = place (index + 1) - 1 + 1 := by
    intro index hindex
    have := hpads.ascending (index + 1) (by simpa using hindex) 0 (Nat.succ_pos index)
    omega
  have hfirst := hpads.kept 0 (by simp)
  rw [hfront] at hfirst
  refine ⟨(Option.some.inj hfirst).symm, fun index ↦ place (index + 1) - 1, ?_, hplace⟩
  constructor
  · intro index hindex
    have hkept := hpads.kept (index + 1) (by simpa using hindex)
    rw [hplace index hindex, List.getElem?_cons_succ, List.getElem?_cons_succ] at hkept
    exact hkept
  · intro later hlater earlier hearlier
    have hascending := hpads.ascending (later + 1) (by simpa using hlater) (earlier + 1)
      (Nat.succ_lt_succ hearlier)
    have := hplace earlier (hearlier.trans hlater)
    omega
  · intro position hposition hother
    apply hpads.filled (position + 1) (by simpa using hposition)
    intro index hindex hsame
    cases index with
    | zero => omega
    | succ index => exact hother index (by simpa using hindex) (by omega)

/-- The first element of a padded list is put in or the first of the list. -/
theorem cons_cases (hpads : Pads idle core (head :: rest) place) :
    (idle head ∧ ∃ later, Pads idle core rest later ∧
      ∀ index < core.length, place index = later index + 1) ∨
    (∃ others later, core = head :: others ∧ Pads idle others rest later ∧ place 0 = 0 ∧
      ∀ index < others.length, place (index + 1) = later index + 1) := by
  by_cases hfront : ∃ index < core.length, place index = 0
  · obtain ⟨index, hindex, hplace⟩ := hfront
    have hzero : index = 0 := by
      by_contra hpositive
      have := hpads.ascending index hindex 0 (Nat.pos_of_ne_zero hpositive)
      omega
    subst hzero
    cases core with
    | nil => simp at hindex
    | cons first others =>
      obtain ⟨rfl, later, hrest, hlater⟩ := hpads.of_cons_kept hplace
      exact .inr ⟨others, later, rfl, hrest, hplace, hlater⟩
  · exact .inl (hpads.of_cons_filled fun index hindex hplace ↦ hfront ⟨index, hindex, hplace⟩)

theorem map {idleImage : γ → Prop} {image : β → γ} (hpads : Pads idle core padded place)
    (hidle : ∀ element, idle element → idleImage (image element)) :
    Pads idleImage (core.map image) (padded.map image) place := by
  constructor
  · intro index hindex
    rw [List.length_map] at hindex
    rw [List.getElem?_map, List.getElem?_map, hpads.kept index hindex]
  · intro later hlater
    rw [List.length_map] at hlater
    exact hpads.ascending later hlater
  · intro position hposition hother element helement
    rw [List.length_map] at hposition hother
    rw [List.getElem?_map, Option.mem_map] at helement
    obtain ⟨origin, horigin, rfl⟩ := helement
    exact hidle origin (hpads.filled position hposition hother origin horigin)

/-! ### Building paddings -/

theorem nil : Pads idle [] [] id := by
  constructor <;> simp

theorem keep (hpads : Pads idle core padded place) (element : β) :
    Pads idle (element :: core) (element :: padded)
      (fun | 0 => 0 | index + 1 => place index + 1) := by
  constructor
  · intro index hindex
    cases index with
    | zero => rfl
    | succ index => exact hpads.kept index (by simpa using hindex)
  · intro later hlater earlier hearlier
    cases later with
    | zero => omega
    | succ later =>
      cases earlier with
      | zero => exact Nat.succ_pos _
      | succ earlier =>
        exact Nat.succ_lt_succ
          (hpads.ascending later (by simpa using hlater) earlier (Nat.lt_of_succ_lt_succ hearlier))
  · intro position hposition hother
    cases position with
    | zero => exact absurd rfl (hother 0 (by simp))
    | succ position =>
      apply hpads.filled position (by simpa using hposition)
      intro index hindex hsame
      exact hother (index + 1) (by simpa using hindex) (congrArg Nat.succ hsame)

theorem put {element : β} (hidle : idle element) (hpads : Pads idle core padded place) :
    Pads idle core (element :: padded) (fun index ↦ place index + 1) := by
  constructor
  · intro index hindex
    exact hpads.kept index hindex
  · intro later hlater earlier hearlier
    exact Nat.succ_lt_succ (hpads.ascending later hlater earlier hearlier)
  · intro position hposition hother
    cases position with
    | zero =>
      intro other hhead
      cases hhead
      exact hidle
    | succ position =>
      apply hpads.filled position (by simpa using hposition)
      intro index hindex hsame
      exact hother index hindex (congrArg Nat.succ hsame)

/-- Every list is the list of its elements that are not idle, padded. -/
theorem exists_filter (active : β → Bool) (hidle : ∀ element, active element = false → idle element)
    (padded : List β) : ∃ place, Pads idle (padded.filter active) padded place := by
  induction padded with
  | nil => exact ⟨id, nil⟩
  | cons head rest ih =>
    obtain ⟨place, hpads⟩ := ih
    cases hactive : active head with
    | true =>
      rw [List.filter_cons_of_pos hactive]
      exact ⟨_, hpads.keep head⟩
    | false =>
      rw [List.filter_cons_of_neg (by simp [hactive])]
      exact ⟨_, hpads.put (hidle head hactive)⟩

end Pads

end Padded

/-! ## Walks -/

namespace Walk

variable {α : Type} [Mul α] [Elementary α]
  [Add α] [Sub α] [Div α] [Neg α] [OfNat α 0] [OfNat α 1] [OfNat α 2]
  {settings : Settings α}

theorem step_ignore {instruction : Instruction α} (hop : instruction.op = .ignore) (walk : Walk α) :
    walk.step settings instruction = .ok walk := by
  rcases instruction with ⟨op, argument⟩
  cases hop
  rfl

/-- A padded walk does what the walk does, and is interrupted where the interrupting instruction has
come to stand. -/
theorem follow_padded {core padded : List (Instruction α)} {place : ℕ → ℕ}
    (hpads : Pads (fun instruction ↦ instruction.op = .ignore) core padded place)
    (position start : ℕ) (walk : Walk α) :
    (∀ last, follow settings position walk core = .ok last →
      follow settings start walk padded = .ok last) ∧
    (∀ interruption, follow settings position walk core = .error interruption →
      ∃ index < core.length, interruption.position = position + index ∧
        follow settings start walk padded =
          .error { interruption with position := start + place index }) := by
  induction padded generalizing core place position start walk with
  | nil =>
    obtain rfl := hpads.core_eq_nil
    constructor
    · intro last hlast
      exact hlast
    · intro interruption hinterruption
      cases hinterruption
  | cons head rest ih =>
    -- an instruction put in moves the padded walk only, any other one moves both
    rcases hpads.cons_cases with
      ⟨hidle, later, hrest, hlater⟩ | ⟨others, later, rfl, hrest, hfront, hlater⟩
    · have hskip : follow settings start walk (head :: rest) =
          follow settings (start + 1) walk rest := by
        rw [follow, step_ignore hidle]
      obtain ⟨hok, herror⟩ := ih hrest position (start + 1) walk
      rw [hskip]
      refine ⟨hok, ?_⟩
      intro interruption hinterruption
      obtain ⟨index, hindex, hposition, hpadded⟩ := herror interruption hinterruption
      refine ⟨index, hindex, hposition, ?_⟩
      rw [hpadded, hlater index hindex, Nat.add_right_comm, Nat.add_assoc]
    · rw [follow, follow]
      cases hstep : walk.step settings head with
      | error fault =>
        constructor
        · intro last hlast
          cases hlast
        · intro interruption hinterruption
          cases hinterruption
          exact ⟨0, by simp, rfl, by rw [hfront]; rfl⟩
      | ok next =>
        obtain ⟨hok, herror⟩ := ih hrest (position + 1) (start + 1) next
        refine ⟨hok, ?_⟩
        intro interruption hinterruption
        obtain ⟨index, hindex, hposition, hpadded⟩ := herror interruption hinterruption
        refine ⟨index + 1, by simpa using hindex, by omega, ?_⟩
        simp only
        rw [hpadded, hlater index hindex, Nat.add_right_comm, Nat.add_assoc]

end Walk

/-- What an interruption says apart from its position. -/
def Interruption.report {α : Type} (interruption : Interruption α) : Fault × List (Placement α) :=
  (interruption.fault, interruption.placements)

/-! ## Interpreters -/

namespace Interpreter

variable {α : Type}

/-- The word with ignored symbols put in anywhere; `place` says where its own symbols stand. -/
def PadsWord (interpreter : Interpreter α) (word padded : Word) (place : ℕ → ℕ) : Prop :=
  Pads (fun symbol ↦ interpreter.convention.op symbol = .ignore) word padded place

/-- The symbols of a word that have an operation. -/
def activeSymbols (interpreter : Interpreter α) (word : Word) : Word :=
  word.filter fun symbol ↦ !(interpreter.convention.op symbol).isIgnore

variable {interpreter : Interpreter α} {word padded : Word} {place : ℕ → ℕ}

theorem PadsWord.instructions (hpads : interpreter.PadsWord word padded place) :
    Pads (fun instruction ↦ instruction.op = .ignore) (interpreter.instructions word)
      (interpreter.instructions padded) place :=
  hpads.map fun _ hop ↦ hop

theorem exists_padsWord_activeSymbols (interpreter : Interpreter α) (word : Word) :
    ∃ place, interpreter.PadsWord (interpreter.activeSymbols word) word place := by
  apply Pads.exists_filter
  intro symbol hignored
  rw [Bool.not_eq_false'] at hignored
  exact Op.isIgnore_eq_true_iff.1 hignored

variable [Mul α] [Elementary α]
  [Add α] [Sub α] [Div α] [Neg α] [OfNat α 0] [OfNat α 1] [OfNat α 2]

theorem interpret_padded_of_ok (hpads : interpreter.PadsWord word padded place) {root : State α}
    {placed : List (Placement α)} (hplaced : interpreter.interpret word root = .ok placed) :
    interpreter.interpret padded root = .ok placed := by
  obtain ⟨last, hlast, rfl⟩ := Walk.placements_eq_ok_iff.1 hplaced
  obtain ⟨hpadded, -⟩ := Walk.follow_padded hpads.instructions 0 0 (Walk.start root)
  exact Walk.placements_eq_ok_iff.2 ⟨last, hpadded last hlast, rfl⟩

theorem interpret_padded_of_error (hpads : interpreter.PadsWord word padded place)
    {root : State α} {interruption : Interruption α}
    (hinterruption : interpreter.interpret word root = .error interruption) :
    interruption.position < word.length ∧
      interpreter.interpret padded root =
        .error { interruption with position := place interruption.position } := by
  rw [interpret, Walk.placements_eq_error_iff] at hinterruption ⊢
  obtain ⟨-, herror⟩ := Walk.follow_padded hpads.instructions 0 0 (Walk.start root)
  obtain ⟨index, hindex, hposition, hpadded⟩ := herror interruption hinterruption
  rw [Nat.zero_add] at hposition hpadded
  rw [Interpreter.instructions, List.length_map] at hindex
  rw [hposition]
  exact ⟨hindex, hpadded⟩

theorem report_interpret_padded (hpads : interpreter.PadsWord word padded place) (root : State α) :
    (interpreter.interpret padded root).mapError Interruption.report =
      (interpreter.interpret word root).mapError Interruption.report := by
  cases hword : interpreter.interpret word root with
  | ok placed => rw [interpret_padded_of_ok hpads hword]
  | error interruption =>
    rw [(interpret_padded_of_error hpads hword).2]
    rfl

/-- Symbols without an operation can be put into a word anywhere. They change neither what is placed
nor the fault that may interrupt the walk, and the symbol that causes it is the same; only its
position is where that symbol now stands. Words with the same symbols that have an operation place
the same, under the same fault if there is one. -/
theorem idle_symbols_only_shift (interpreter : Interpreter α) (root : State α) :
    (∀ (word padded : Word) (place : ℕ → ℕ), interpreter.PadsWord word padded place →
      (∀ placed, interpreter.interpret word root = .ok placed →
        interpreter.interpret padded root = .ok placed) ∧
      (∀ interruption, interpreter.interpret word root = .error interruption →
        interruption.position < word.length ∧
        padded[place interruption.position]? = word[interruption.position]? ∧
        interpreter.interpret padded root =
          .error { interruption with position := place interruption.position })) ∧
    ∀ first second : Word, interpreter.activeSymbols first = interpreter.activeSymbols second →
      (interpreter.interpret first root).mapError Interruption.report =
        (interpreter.interpret second root).mapError Interruption.report := by
  constructor
  · intro word padded place hpads
    refine ⟨fun placed ↦ interpret_padded_of_ok hpads, ?_⟩
    intro interruption hinterruption
    obtain ⟨hinside, hpadded⟩ := interpret_padded_of_error hpads hinterruption
    exact ⟨hinside, hpads.kept _ hinside, hpadded⟩
  · intro first second hsame
    obtain ⟨place, hfirst⟩ := interpreter.exists_padsWord_activeSymbols first
    obtain ⟨other, hsecond⟩ := interpreter.exists_padsWord_activeSymbols second
    rw [← hsame] at hsecond
    rw [report_interpret_padded hfirst, report_interpret_padded hsecond]

/-- Under the customary convention, blanks and small letters around an unmatched closing. -/
theorem idle_symbols_only_shift_blanks :
    ∃ placed,
      interpret ⟨Settings.default, Convention.standard⟩ "F]F".toList Settings.default.root =
        .error ⟨.unmatchedPop, 1, placed⟩ ∧
      interpret ⟨Settings.default, Convention.standard⟩ "xF y]F ".toList Settings.default.root =
        .error ⟨.unmatchedPop, 4, placed⟩ ∧
      (interpret ⟨Settings.default, Convention.standard⟩ " F]".toList Settings.default.root).mapError
          Interruption.report =
        (interpret ⟨Settings.default, Convention.standard⟩ "F x]".toList Settings.default.root).mapError
          Interruption.report := by
  obtain ⟨hpadded, hsame⟩ :=
    idle_symbols_only_shift ⟨Settings.default, Convention.standard⟩ Settings.default.root
  obtain ⟨-, herror⟩ := hpadded "F]F".toList "xF y]F ".toList
    (fun index ↦ [1, 4, 5][index]?.getD 0) (by unfold PadsWord; decide)
  exact ⟨_, rfl, (herror _ rfl).2.2, hsame _ _ (by decide)⟩

end Interpreter

end PlantGrowth.Turtle
