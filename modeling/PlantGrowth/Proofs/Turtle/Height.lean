import Mathlib.Data.Nat.Find
import Mathlib.Order.Bounds.Basic
import PlantGrowth.Turtle.State

/-!
# Heights

The height of a list of operations counts the branches it opens less those it closes. It starts at
zero and changes by at most one with every operation, so it cannot leave a range of heights without
passing through the value next to it.
-/

namespace PlantGrowth.Turtle

variable {α : Type}

namespace Op

def isPush : Op α → Bool
  | .push => true
  | _ => false

def isPop : Op α → Bool
  | .pop => true
  | _ => false

/-- The operation neither opens nor closes a branch. -/
def Plain (op : Op α) : Prop := op.isPush = false ∧ op.isPop = false

instance (op : Op α) : Decidable op.Plain :=
  inferInstanceAs (Decidable (op.isPush = false ∧ op.isPop = false))

theorem push_or_pop_or_plain (op : Op α) : op = .push ∨ op = .pop ∨ op.Plain := by
  cases op <;> simp [Plain, isPush, isPop]

@[simp]
theorem isPush_eq_true_iff {op : Op α} : op.isPush = true ↔ op = .push := by
  cases op <;> simp [isPush]

@[simp]
theorem isPop_eq_true_iff {op : Op α} : op.isPop = true ↔ op = .pop := by
  cases op <;> simp [isPop]

end Op

/-! ## Rises -/

/-- Branches opened less branches closed. -/
def rise (ops : List (Op α)) : ℤ := (ops.countP Op.isPush : ℤ) - ops.countP Op.isPop

@[simp]
theorem rise_nil : rise ([] : List (Op α)) = 0 := rfl

@[simp]
theorem rise_append (first second : List (Op α)) :
    rise (first ++ second) = rise first + rise second := by
  simp only [rise, List.countP_append]
  omega

theorem rise_cons (op : Op α) (rest : List (Op α)) : rise (op :: rest) = rise [op] + rise rest :=
  rise_append [op] rest

@[simp]
theorem rise_push : rise [(.push : Op α)] = 1 := rfl

@[simp]
theorem rise_pop : rise [(.pop : Op α)] = -1 := rfl

theorem rise_of_plain {op : Op α} (hplain : op.Plain) : rise [op] = 0 := by
  simp [rise, hplain.1, hplain.2]

theorem rise_singleton_bounds (op : Op α) : -1 ≤ rise [op] ∧ rise [op] ≤ 1 := by
  rcases op.push_or_pop_or_plain with rfl | rfl | hplain
  · simp
  · simp
  · simp [rise_of_plain hplain]

/-! ## Heights -/

/-- The rise of the first operations. -/
def height (ops : List (Op α)) (count : ℕ) : ℤ := rise (ops.take count)

@[simp]
theorem height_zero (ops : List (Op α)) : height ops 0 = 0 := by
  simp [height]

@[simp]
theorem height_length (ops : List (Op α)) : height ops ops.length = rise ops := by
  simp [height]

theorem height_take {ops : List (Op α)} {count total : ℕ} (hcount : count ≤ total) :
    height (ops.take total) count = height ops count := by
  rw [height, List.take_take, Nat.min_eq_left hcount, height]

theorem height_append_of_le {first second : List (Op α)} {count : ℕ}
    (hcount : count ≤ first.length) : height (first ++ second) count = height first count := by
  rw [height, List.take_append_of_le_length hcount, height]

theorem height_append_add (first second : List (Op α)) (count : ℕ) :
    height (first ++ second) (first.length + count) = rise first + height second count := by
  rw [height, List.take_length_add_append, rise_append, height]

theorem height_drop (ops : List (Op α)) (start count : ℕ) :
    height (ops.drop start) count = height ops (start + count) - height ops start := by
  have hsplit : height ops (start + count) = height ops start + height (ops.drop start) count := by
    calc
      _ = rise (ops.take start ++ (ops.drop start).take count) := by rw [height, List.take_add]
      _ = _ := rise_append _ _
  omega

theorem height_succ {ops : List (Op α)} {count : ℕ} (hcount : count < ops.length) :
    height ops (count + 1) = height ops count + rise [ops[count]] := by
  rw [height, List.take_add_one, List.getElem?_eq_getElem hcount, rise_append]
  rfl

theorem height_cons_succ (op : Op α) (rest : List (Op α)) (count : ℕ) :
    height (op :: rest) (count + 1) = rise [op] + height rest count := by
  rw [height, List.take_succ_cons, rise_cons]
  rfl

theorem height_succ_bounds (ops : List (Op α)) (count : ℕ) :
    height ops count - 1 ≤ height ops (count + 1) ∧
      height ops (count + 1) ≤ height ops count + 1 := by
  rcases Nat.lt_or_ge count ops.length with hcount | hcount
  · have hbounds := rise_singleton_bounds ops[count]
    rw [height_succ hcount]
    omega
  · have hsame : height ops (count + 1) = height ops count := by
      simp [height, List.take_of_length_le, hcount, Nat.le_succ_of_le hcount]
    omega

/-! ## Brackets -/

/-- What each operation adds to the height, all else about it forgotten. -/
def brackets (ops : List (Op α)) : List ℤ := ops.map fun op ↦ rise [op]

theorem rise_congr {β : Type} {ops : List (Op α)} {others : List (Op β)}
    (hsame : brackets ops = brackets others) : rise ops = rise others := by
  induction ops generalizing others with
  | nil =>
    cases others with
    | nil => rfl
    | cons other others => simp [brackets] at hsame
  | cons op ops ih =>
    cases others with
    | nil => simp [brackets] at hsame
    | cons other others =>
      have hhead : rise [op] = rise [other] := (List.cons.inj hsame).1
      have htail : brackets ops = brackets others := (List.cons.inj hsame).2
      calc
        _ = rise [op] + rise ops := rise_cons op ops
        _ = rise [other] + rise others := by rw [hhead, ih htail]
        _ = _ := (rise_cons other others).symm

theorem height_congr {β : Type} {ops : List (Op α)} {others : List (Op β)}
    (hsame : brackets ops = brackets others) : height ops = height others := by
  funext count
  apply rise_congr
  rw [brackets, List.map_take]
  exact (congrArg (List.take count) hsame).trans List.map_take.symm

/-! ## Leaving a range -/

/-- All heights lie between zero and the depth. -/
def Within (depth : ℕ) (ops : List (Op α)) : Prop :=
  ∀ count ≤ ops.length, 0 ≤ height ops count ∧ height ops count ≤ depth

instance (depth : ℕ) (ops : List (Op α)) : Decidable (Within depth ops) :=
  inferInstanceAs
    (Decidable (∀ count ≤ ops.length, 0 ≤ height ops count ∧ height ops count ≤ depth))

/-- The positions of the operations that lead to a height next to the range. -/
def exits (depth : ℕ) (ops : List (Op α)) : Set ℕ :=
  {position | height ops (position + 1) = -1 ∨ height ops (position + 1) = depth + 1}

variable {depth : ℕ} {ops : List (Op α)}

theorem within_range_of_no_exit {count : ℕ} (hnone : ∀ position < count, position ∉ exits depth ops) :
    0 ≤ height ops count ∧ height ops count ≤ depth := by
  induction count with
  | zero => simp
  | succ count ih =>
    have hrange := ih fun position hposition ↦ hnone position (by omega)
    have hbounds := height_succ_bounds ops count
    have hstay := hnone count (by omega)
    simp only [exits, Set.mem_ofPred_eq, not_or] at hstay
    omega

theorem range_before_exit {position count : ℕ} (hfirst : IsLeast (exits depth ops) position)
    (hcount : count ≤ position) : 0 ≤ height ops count ∧ height ops count ≤ depth := by
  apply within_range_of_no_exit
  intro earlier hearlier hexit
  have := hfirst.2 hexit
  omega

theorem exists_first_exit (hleave : ¬ Within depth ops) :
    ∃ position < ops.length, IsLeast (exits depth ops) position := by
  classical
  obtain ⟨exit, hexit, hmem⟩ : ∃ position, position < ops.length ∧ position ∈ exits depth ops := by
    by_contra hnone
    push Not at hnone
    exact hleave fun count hcount ↦
      within_range_of_no_exit fun position hposition ↦ hnone position (by omega)
  have hsome : ∃ position, position ∈ exits depth ops := ⟨exit, hmem⟩
  exact ⟨Nat.find hsome, lt_of_le_of_lt (Nat.find_min' hsome hmem) hexit,
    Nat.find_spec hsome, fun position hposition ↦ Nat.find_min' hsome hposition⟩

end PlantGrowth.Turtle
