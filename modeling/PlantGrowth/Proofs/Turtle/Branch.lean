import Mathlib.Data.List.Basic
import PlantGrowth.Proofs.Turtle.Height

/-!
# Branches

An opening and the closing that matches it enclose a branch. What no closed branch encloses is the
active path, together with the openings that are still unmatched. Appending an operation extends the
active path, remembers an opening, or encloses everything since the last opening.
-/

namespace PlantGrowth.Turtle

variable {α : Type}

/-! ## Balanced lists -/

/-- No first part closes more branches than it opens, and in the end all branches are closed. -/
def Balanced (ops : List (Op α)) : Prop :=
  (∀ count ≤ ops.length, 0 ≤ height ops count) ∧ rise ops = 0

instance (ops : List (Op α)) : Decidable (Balanced ops) :=
  inferInstanceAs (Decidable ((∀ count ≤ ops.length, 0 ≤ height ops count) ∧ rise ops = 0))

/-- Within a balanced part no height is below the one at its start. -/
theorem Balanced.heights {ops : List (Op α)} {start stop : ℕ} (hstart : start ≤ stop)
    (hstop : stop ≤ ops.length) (hbalanced : Balanced ((ops.take stop).drop start)) :
    (∀ count, start ≤ count → count ≤ stop → height ops start ≤ height ops count) ∧
      height ops stop = height ops start := by
  have hpart {count : ℕ} (hcount : start + count ≤ stop) :
      height ((ops.take stop).drop start) count = height ops (start + count) - height ops start := by
    rw [height_drop, height_take hcount, height_take hstart]
  have hlength : ((ops.take stop).drop start).length = stop - start := by
    simp [Nat.min_eq_left hstop]
  constructor
  · intro count hafter hbefore
    have hcount : start + (count - start) = count := by omega
    have hlow := hbalanced.1 (count - start) (by omega)
    rw [hpart (by omega), hcount] at hlow
    omega
  · have hwhole : start + (stop - start) = stop := by omega
    have hend := hbalanced.2
    rw [← height_length, hlength, hpart (by omega), hwhole] at hend
    omega

/-- Above height zero some opening is the last to lead up to the height at the end. -/
theorem exists_last_rise {ops : List (Op α)} (hopen : 0 < rise ops) :
    ∃ last, ∃ hlast : last < ops.length, ops[last] = .push ∧ height ops (last + 1) = rise ops ∧
      ∀ count, last < count → count ≤ ops.length → rise ops ≤ height ops count := by
  classical
  let last := Nat.findGreatest (fun count ↦ height ops count < rise ops) ops.length
  have hlow : height ops last < rise ops :=
    Nat.findGreatest_spec (P := fun count ↦ height ops count < rise ops) (Nat.zero_le _)
      (by simpa using hopen)
  have hinside : last ≠ ops.length := by
    intro heq
    rw [heq, height_length] at hlow
    omega
  have hlast : last < ops.length := Nat.lt_of_le_of_ne (Nat.findGreatest_le _) hinside
  have hafter : ∀ count, last < count → count ≤ ops.length → rise ops ≤ height ops count := by
    intro count hcount hbound
    have := Nat.findGreatest_is_greatest hcount hbound
    omega
  have hnext := hafter (last + 1) (by omega) (by omega)
  have hbounds := height_succ_bounds ops last
  refine ⟨last, hlast, ?_, by omega, hafter⟩
  rw [height_succ hlast] at hnext
  rcases ops[last].push_or_pop_or_plain with hop | hop | hop
  · exact hop
  · rw [hop, rise_pop] at hnext
    omega
  · rw [rise_of_plain hop] at hnext
    omega

/-- Above height zero there is an opening after which everything is balanced. -/
theorem exists_last_opening {ops : List (Op α)} (hopen : 0 < rise ops) :
    ∃ before inner, ops = before ++ .push :: inner ∧ Balanced inner := by
  obtain ⟨last, hlast, hpush, hheight, hafter⟩ := exists_last_rise hopen
  have hlength : (ops.drop (last + 1)).length = ops.length - (last + 1) := List.length_drop
  refine ⟨ops.take last, ops.drop (last + 1), ?_, ?_, ?_⟩
  · rw [← hpush, ← List.drop_eq_getElem_cons hlast, List.take_append_drop]
  · intro count hcount
    have := hafter (last + 1 + count) (by omega) (by omega)
    rw [height_drop]
    omega
  · have hend : last + 1 + (ops.length - (last + 1)) = ops.length := by omega
    rw [← height_length, height_drop, hlength, hend, height_length]
    omega

/-! ## Matching brackets -/

/-- The position holds an opening. -/
def PushAt (ops : List (Op α)) (position : ℕ) : Prop := ops[position]? = some .push

instance (ops : List (Op α)) (position : ℕ) : Decidable (PushAt ops position) :=
  decidable_of_iff (ops[position]?.any Op.isPush = true) (by simp [PushAt, Option.any_eq_true])

theorem pushAt_append_left {first : List (Op α)} {position : ℕ} (hposition : position < first.length)
    (second : List (Op α)) : PushAt (first ++ second) position ↔ PushAt first position := by
  rw [PushAt, List.getElem?_append_left hposition, PushAt]

@[simp]
theorem pushAt_append_right (first second : List (Op α)) (offset : ℕ) :
    PushAt (first ++ second) (first.length + offset) ↔ PushAt second offset := by
  rw [PushAt, List.getElem?_append_right (Nat.le_add_right _ _), Nat.add_sub_cancel_left, PushAt]

/-- The position holds a closing. -/
def PopAt (ops : List (Op α)) (position : ℕ) : Prop := ops[position]? = some .pop

instance (ops : List (Op α)) (position : ℕ) : Decidable (PopAt ops position) :=
  decidable_of_iff (ops[position]?.any Op.isPop = true) (by simp [PopAt, Option.any_eq_true])

/-- An opening and a closing with a balanced list between them. -/
structure Matched (ops : List (Op α)) (opening closing : ℕ) : Prop where
  opens : PushAt ops opening
  closes : PopAt ops closing
  before : opening < closing
  balanced : Balanced ((ops.take closing).drop (opening + 1))

instance (ops : List (Op α)) (opening closing : ℕ) : Decidable (Matched ops opening closing) :=
  decidable_of_iff
    (PushAt ops opening ∧ PopAt ops closing ∧ opening < closing ∧
      Balanced ((ops.take closing).drop (opening + 1)))
    ⟨fun ⟨opens, closes, before, balanced⟩ ↦ ⟨opens, closes, before, balanced⟩,
      fun ⟨opens, closes, before, balanced⟩ ↦ ⟨opens, closes, before, balanced⟩⟩

theorem Matched.closing_lt {ops : List (Op α)} {opening closing : ℕ}
    (hmatched : Matched ops opening closing) : closing < ops.length :=
  (List.getElem?_eq_some_iff.1 hmatched.closes).1

theorem matched_append_left {first second : List (Op α)} {opening closing : ℕ}
    (hclosing : closing < first.length) :
    Matched (first ++ second) opening closing ↔ Matched first opening closing := by
  have hpart : (first ++ second).take closing = first.take closing :=
    List.take_append_of_le_length (Nat.le_of_lt hclosing)
  have hget {position : ℕ} (hposition : position ≤ closing) :
      (first ++ second)[position]? = first[position]? :=
    List.getElem?_append_left (by omega)
  constructor
  · intro hmatched
    refine ⟨?_, ?_, hmatched.before, hpart ▸ hmatched.balanced⟩
    · rw [PushAt, ← hget (Nat.le_of_lt hmatched.before)]
      exact hmatched.opens
    · rw [PopAt, ← hget (Nat.le_refl _)]
      exact hmatched.closes
  · intro hmatched
    refine ⟨?_, ?_, hmatched.before, hpart ▸ hmatched.balanced⟩
    · rw [PushAt, hget (Nat.le_of_lt hmatched.before)]
      exact hmatched.opens
    · rw [PopAt, hget (Nat.le_refl _)]
      exact hmatched.closes

/-- The position lies in a closed branch, the brackets of the branch included. -/
def Enclosed (ops : List (Op α)) (position : ℕ) : Prop :=
  ∃ opening ≤ position, ∃ closing < ops.length,
    position ≤ closing ∧ Matched ops opening closing

instance (ops : List (Op α)) (position : ℕ) : Decidable (Enclosed ops position) :=
  inferInstanceAs (Decidable (∃ opening ≤ position, ∃ closing < ops.length,
    position ≤ closing ∧ Matched ops opening closing))

/-- Every matched pair around the first part closes within it. -/
theorem enclosed_append_left {first second : List (Op α)} {position : ℕ}
    (hclosed : ∀ opening closing, opening ≤ position →
      Matched (first ++ second) opening closing → closing < first.length) :
    Enclosed (first ++ second) position ↔ Enclosed first position := by
  constructor
  · intro henclosed
    obtain ⟨opening, hopening, closing, -, hposition, hmatched⟩ := henclosed
    have hclosing := hclosed opening closing hopening hmatched
    exact ⟨opening, hopening, closing, hclosing, hposition,
      (matched_append_left hclosing).1 hmatched⟩
  · intro henclosed
    obtain ⟨opening, hopening, closing, hclosing, hposition, hmatched⟩ := henclosed
    refine ⟨opening, hopening, closing, ?_, hposition, (matched_append_left hclosing).2 hmatched⟩
    rw [List.length_append]
    omega

/-! ## The active path -/

/-- What remains of the operations without the closed branches and the unmatched openings. -/
def activePath (ops : List (Op α)) : List (Op α) :=
  (List.range ops.length).filterMap fun position ↦
    if Enclosed ops position ∨ PushAt ops position then none else ops[position]?

/-- The positions of the unmatched openings. -/
def openings (ops : List (Op α)) : List ℕ :=
  (List.range ops.length).filter fun position ↦ PushAt ops position ∧ ¬ Enclosed ops position

theorem lt_of_mem_openings {ops : List (Op α)} {opening : ℕ} (hopening : opening ∈ openings ops) :
    opening < ops.length :=
  List.mem_range.1 (List.mem_filter.1 hopening).1

section Append

variable {first second : List (Op α)}
  (hclosed : ∀ position < first.length, ∀ opening closing, opening ≤ position →
    Matched (first ++ second) opening closing → closing < first.length)

include hclosed

/-- A part that closes no earlier branch leaves what was active before it. -/
theorem activePath_append :
    activePath (first ++ second) = activePath first ++
      (List.range second.length).filterMap fun offset ↦
        if Enclosed (first ++ second) (first.length + offset) ∨ PushAt second offset then none
        else second[offset]? := by
  rw [activePath, List.length_append, List.range_add, List.filterMap_append, activePath,
    List.filterMap_map]
  congr 1
  · apply List.filterMap_congr
    intro position hposition
    rw [List.mem_range] at hposition
    simp only [enclosed_append_left (hclosed position hposition), pushAt_append_left hposition,
      List.getElem?_append_left hposition]
  · apply List.filterMap_congr
    intro offset _
    have hget : (first ++ second)[first.length + offset]? = second[offset]? := by
      rw [List.getElem?_append_right (Nat.le_add_right _ _), Nat.add_sub_cancel_left]
    simp [hget]

theorem openings_append :
    openings (first ++ second) = openings first ++
      ((List.range second.length).filter fun offset ↦
        PushAt second offset ∧ ¬ Enclosed (first ++ second) (first.length + offset)).map
          (first.length + ·) := by
  rw [openings, List.length_append, List.range_add, List.filter_append, openings, List.filter_map]
  congr 1
  · apply List.filter_congr
    intro position hposition
    rw [List.mem_range] at hposition
    simp only [enclosed_append_left (hclosed position hposition), pushAt_append_left hposition]
  · apply congrArg
    apply List.filter_congr
    intro offset _
    simp

end Append

/-! ### One more operation -/

section Concat

variable {ops : List (Op α)} {op : Op α}

theorem closing_lt_of_concat (hop : op ≠ .pop) {opening closing : ℕ}
    (hmatched : Matched (ops ++ [op]) opening closing) : closing < ops.length := by
  have hlt := hmatched.closing_lt
  rw [List.length_append, List.length_singleton] at hlt
  apply Nat.lt_of_le_of_ne (by omega)
  intro heq
  apply hop
  simpa [PopAt, heq] using hmatched.closes

theorem not_enclosed_concat (hop : op ≠ .pop) : ¬ Enclosed (ops ++ [op]) ops.length := by
  intro henclosed
  obtain ⟨opening, -, closing, -, hposition, hmatched⟩ := henclosed
  have := closing_lt_of_concat hop hmatched
  omega

theorem Op.Plain.ne_push (hplain : op.Plain) : op ≠ .push := by
  intro heq
  subst heq
  simp [Op.Plain, Op.isPush] at hplain

theorem Op.Plain.ne_pop (hplain : op.Plain) : op ≠ .pop := by
  intro heq
  subst heq
  simp [Op.Plain, Op.isPop] at hplain

theorem activePath_concat_of_plain (hplain : op.Plain) :
    activePath (ops ++ [op]) = activePath ops ++ [op] := by
  rw [activePath_append fun _ _ _ _ _ ↦ closing_lt_of_concat hplain.ne_pop]
  simp [PushAt, hplain.ne_push, not_enclosed_concat hplain.ne_pop]

theorem openings_concat_of_plain (hplain : op.Plain) : openings (ops ++ [op]) = openings ops := by
  rw [openings_append fun _ _ _ _ _ ↦ closing_lt_of_concat hplain.ne_pop]
  simp [PushAt, hplain.ne_push]

theorem activePath_concat_push : activePath (ops ++ [.push]) = activePath ops := by
  rw [activePath_append fun _ _ _ _ _ ↦ closing_lt_of_concat (by simp)]
  simp [PushAt]

theorem openings_concat_push : openings (ops ++ [.push]) = openings ops ++ [ops.length] := by
  rw [openings_append fun _ _ _ _ _ ↦ closing_lt_of_concat (by simp)]
  have hfree : ¬ Enclosed (ops ++ [.push]) ops.length := not_enclosed_concat (by simp)
  simp [PushAt, hfree]

end Concat

/-! ### A closed branch -/

section Closed

variable {before inner : List (Op α)}

/-- A branch with a balanced inside. -/
def branch (inner : List (Op α)) : List (Op α) := .push :: (inner ++ [.pop])

@[simp]
theorem length_branch (inner : List (Op α)) : (branch inner).length = inner.length + 2 := by
  simp [branch]

theorem matched_branch (before : List (Op α)) (hbalanced : Balanced inner) :
    Matched (before ++ branch inner) before.length (before.length + inner.length + 1) := by
  have hinside : ((before ++ branch inner).take (before.length + inner.length + 1)).drop
      (before.length + 1) = inner := by
    simp [branch, List.take_append, List.drop_append, Nat.add_assoc]
  refine ⟨by simp [PushAt, branch], ?_, by omega, ?_⟩
  · simp [PopAt, branch, Nat.add_assoc]
  · rw [hinside]
    exact hbalanced

theorem enclosed_branch (before : List (Op α)) (hbalanced : Balanced inner) {offset : ℕ}
    (hoffset : offset < (branch inner).length) :
    Enclosed (before ++ branch inner) (before.length + offset) := by
  rw [length_branch] at hoffset
  refine ⟨before.length, by omega, before.length + inner.length + 1, ?_, by omega,
    matched_branch before hbalanced⟩
  rw [List.length_append, length_branch]
  omega

/-- A pair that opens before a balanced branch closes before it. -/
theorem closing_lt_of_branch (hbalanced : Balanced inner) {opening closing : ℕ}
    (hopening : opening < before.length)
    (hmatched : Matched (before ++ branch inner) opening closing) : closing < before.length := by
  by_contra hlate
  have hlength := hmatched.closing_lt
  rw [List.length_append, length_branch] at hlength
  obtain ⟨hlow, hend⟩ := hmatched.balanced.heights (by omega) (Nat.le_of_lt hmatched.closing_lt)
  have hstart := hlow before.length (by omega) (by omega)
  have hpush : closing ≠ before.length := by
    intro heq
    subst heq
    simpa [PopAt, branch] using hmatched.closes
  -- Inside the branch the height exceeds the height before it by one at least.
  have hinside : height (before ++ branch inner) closing =
      rise before + (1 + height inner (closing - before.length - 1)) := by
    have hclosing : closing = before.length + (closing - before.length - 1 + 1) := by omega
    calc
      _ = rise before + height (branch inner) (closing - before.length - 1 + 1) := by
        conv_lhs => rw [hclosing, height_append_add]
      _ = rise before + (1 + height (inner ++ [.pop]) (closing - before.length - 1)) := by
        rw [branch, height_cons_succ, rise_push]
      _ = _ := by rw [height_append_of_le (by omega)]
  have hnonneg := hbalanced.1 (closing - before.length - 1) (by omega)
  rw [height_append_of_le (Nat.le_refl _), height_length] at hstart
  omega

theorem activePath_branch (before : List (Op α)) (hbalanced : Balanced inner) :
    activePath (before ++ branch inner) = activePath before := by
  rw [activePath_append fun position hposition opening closing hopening ↦
    closing_lt_of_branch hbalanced (by omega)]
  have hnone : ∀ offset ∈ List.range (branch inner).length,
      (if Enclosed (before ++ branch inner) (before.length + offset) ∨ PushAt (branch inner) offset
        then none else (branch inner)[offset]?) = none := by
    intro offset hoffset
    rw [if_pos (Or.inl (enclosed_branch before hbalanced (List.mem_range.1 hoffset)))]
  rw [List.filterMap_eq_nil_iff.2 hnone, List.append_nil]

theorem openings_branch (before : List (Op α)) (hbalanced : Balanced inner) :
    openings (before ++ branch inner) = openings before := by
  rw [openings_append fun position hposition opening closing hopening ↦
    closing_lt_of_branch hbalanced (by omega)]
  have hnone : ∀ offset ∈ List.range (branch inner).length,
      ¬ decide (PushAt (branch inner) offset ∧
        ¬ Enclosed (before ++ branch inner) (before.length + offset)) = true := by
    intro offset hoffset
    simp [enclosed_branch before hbalanced (List.mem_range.1 hoffset)]
  rw [List.filter_eq_nil_iff.2 hnone, List.map_nil, List.append_nil]

/-- A closed branch is left out and an open one is entered. -/
example : activePath [.draw, .push, .yaw 1, .push, .draw, .pop, .pop, .push, (.roll 2 : Op ℕ)] =
    [.draw, .roll 2] := by decide

end Closed

end PlantGrowth.Turtle
