import PlantGrowth.Proofs.Table
import PlantGrowth.Turtle.Interpreter

/-!
# Conventions as functions

A convention is determined by the operations of the symbols: it lists exactly the symbols that have
one, so nothing of the way in which it was made is left in it. After any history of changes a symbol
has the operation that was given to it last.
-/

namespace PlantGrowth.Turtle

variable {α : Type}

theorem Op.isIgnore_eq_true_iff {op : Op α} : op.isIgnore = true ↔ op = .ignore := by
  cases op <;> simp [Op.isIgnore]

/-- The numbers that an operation carries. -/
def Op.numbers : Op α → List α
  | .yaw number | .pitch number | .roll number | .turn _ number | .setSpread number
  | .setStep number => [number]
  | .draw | .move | .ornament | .shrink | .push | .pop | .ignore => []

section Comparison

variable [BEq α]

theorem Op.beq_self_eq (op : Op α) : (op == op) = op.numbers.all fun number ↦ number == number := by
  cases op with
  | yaw number | pitch number | roll number | setSpread number | setStep number =>
    exact (Bool.and_true _).symm
  | turn axis degrees =>
    have hparts : (Op.turn axis degrees == .turn axis degrees) = (axis == axis && degrees == degrees) :=
      rfl
    simp [hparts, Op.numbers]
  | draw | move | ornament | shrink | push | pop | ignore => rfl

theorem Op.beq_ignore (op : Op α) : (op == .ignore) = op.isIgnore := by
  cases op <;> rfl

theorem Op.ignore_beq (op : Op α) : (Op.ignore == op) = op.isIgnore := by
  cases op <;> rfl

end Comparison

namespace Convention

/-! ## Operations and entries -/

theorem isIgnore_of_get? {convention : Convention α} {symbol : Char} {op : Op α}
    (hget : convention.ops.get? symbol = some op) : op.isIgnore = false :=
  convention.effective _ (Table.get?_eq_some_iff.1 hget)

theorem mem_entries_iff {convention : Convention α} {symbol : Char} {op : Op α} :
    (symbol, op) ∈ convention.ops.entries ↔ convention.op symbol = op ∧ op ≠ .ignore := by
  rw [← Table.get?_eq_some_iff, Convention.op]
  constructor
  · intro hget
    rw [hget]
    refine ⟨rfl, ?_⟩
    rintro rfl
    cases isIgnore_of_get? hget
  · intro hop
    obtain ⟨rfl, hop⟩ := hop
    cases hget : convention.ops.get? symbol with
    | none => simp [hget] at hop
    | some listed => rfl

/-- Conventions that agree on every symbol are the same. -/
theorem ext_op {first second : Convention α}
    (hsame : ∀ symbol, first.op symbol = second.op symbol) : first = second := by
  have hops : first.ops = second.ops := by
    apply Table.ext_mem
    rintro ⟨symbol, op⟩
    rw [mem_entries_iff, mem_entries_iff, hsame]
  cases first
  cases second
  congr

theorem op_set (convention : Convention α) (symbol other : Char) (op : Op α) :
    (convention.set symbol op).op other = if other = symbol then op else convention.op other := by
  unfold Convention.set
  split
  · rename_i hignored
    rw [Convention.op, Convention.op, Table.get?_erase]
    split
    · rw [Op.isIgnore_eq_true_iff.1 hignored]
      rfl
    · rfl
  · rw [Convention.op, Convention.op, Table.get?_insert]
    split <;> rfl

theorem set_comm (convention : Convention α) {symbol other : Char} (hne : symbol ≠ other)
    (op otherOp : Op α) :
    (convention.set symbol op).set other otherOp = (convention.set other otherOp).set symbol op := by
  apply ext_op
  intro third
  rw [op_set, op_set, op_set, op_set]
  grind

open Table in
theorem op_setAll (convention : Convention α) (assignments : List (Char × Op α)) (symbol : Char) :
    (convention.setAll assignments).op symbol =
      (lastWritten? assignments symbol).getD (convention.op symbol) := by
  induction assignments generalizing convention with
  | nil => rfl
  | cons assignment rest ih =>
    have hrest := ih (convention.set assignment.1 assignment.2)
    rw [op_set] at hrest
    rw [lastWritten?_cons, setAll, List.foldl_cons, ← setAll, hrest]
    cases lastWritten? rest symbol with
    | some op => rfl
    | none =>
      by_cases hsame : assignment.1 = symbol
      · simp [hsame]
      · simp [hsame, Ne.symm hsame]

/-! ## Histories -/

/-- A change of a convention. -/
inductive Edit (α : Type)
  | assign (symbol : Char) (op : Op α)
  | standard

section Edits

variable [Neg α] [OfNat α 1] [OfNat α 180]

/-- The operations that a change gives, one after another. -/
def Edit.writes : Edit α → List (Char × Op α)
  | .assign symbol op => [(symbol, op)]
  | .standard => standardAssignments

def edit (convention : Convention α) : Edit α → Convention α
  | .assign symbol op => convention.set symbol op
  | .standard => convention.setStandard

def edited (convention : Convention α) (history : List (Edit α)) : Convention α :=
  history.foldl edit convention

theorem edit_eq_setAll (convention : Convention α) (edit : Edit α) :
    convention.edit edit = convention.setAll edit.writes := by
  cases edit <;> rfl

theorem op_edited (convention : Convention α) (history : List (Edit α)) (symbol : Char) :
    (convention.edited history).op symbol =
      (Table.lastWritten? (history.flatMap Edit.writes) symbol).getD (convention.op symbol) := by
  have hsetAll : convention.edited history = convention.setAll (history.flatMap Edit.writes) := by
    rw [edited, setAll, List.foldl_flatMap]
    congr 1
    funext current change
    exact edit_eq_setAll current change
  rw [hsetAll, op_setAll]

end Edits

/-! ## Comparison -/

section Comparison

variable [BEq α] {first second : Convention α}

/-- No operation that is listed compares as equal to that of a symbol without one. -/
theorem get?_beq_get? (first second : Convention α) (symbol : Char) :
    (first.ops.get? symbol == second.ops.get? symbol) = (first.op symbol == second.op symbol) := by
  unfold Convention.op
  cases hfirst : first.ops.get? symbol with
  | none =>
    cases hsecond : second.ops.get? symbol with
    | none => rfl
    | some op => exact ((Op.ignore_beq op).trans (isIgnore_of_get? hsecond)).symm
  | some op =>
    cases hsecond : second.ops.get? symbol with
    | none => exact ((Op.beq_ignore op).trans (isIgnore_of_get? hfirst)).symm
    | some other => rfl

/-- Conventions compare as equal exactly when the operations of every symbol do. -/
theorem beq_iff : (first == second) = true ↔ ∀ symbol, (first.op symbol == second.op symbol) = true := by
  have hops : (first == second) = (first.ops == second.ops) := rfl
  rw [hops, Table.beq_iff]
  simp only [get?_beq_get?]

end Comparison

end Convention

end PlantGrowth.Turtle
