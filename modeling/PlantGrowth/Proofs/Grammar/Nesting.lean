import Mathlib.Data.List.MinMax
import Mathlib.Tactic.Ring
import PlantGrowth.Grammar.Basic
import PlantGrowth.Proofs.Turtle.Branch

/-!
# Nesting under derivation

The symbols of a word are read as operations, some of which open or close branches. When only
symbols that do neither are replaced, and by balanced words, a pass leaves the heights between the
symbols as they were and adds some above them. So no height becomes negative, and the highest one
grows by no more than the highest of a replacement with each pass.
-/

namespace PlantGrowth

open Turtle

variable {α : Type}

namespace Turtle

/-- The largest height. -/
def peak (ops : List (Op α)) : ℤ := ((List.range (ops.length + 1)).map (height ops)).foldr max 0

theorem height_le_peak {ops : List (Op α)} {count : ℕ} (hcount : count ≤ ops.length) :
    height ops count ≤ peak ops := by
  apply List.le_max_of_le' 0 (List.mem_map.2 ⟨count, ?_, rfl⟩) (le_refl _)
  rw [List.mem_range]
  omega

end Turtle

namespace Grammar

/-- Every rule replaces a symbol that neither opens nor closes a branch by a balanced word whose
heights are at most the given one. -/
structure Nests (grammar : Grammar) (op : Char → Op α) (depth : ℤ) : Prop where
  depth_nonneg : 0 ≤ depth
  plain : ∀ {symbol replacement}, grammar.rule? symbol = some replacement → (op symbol).Plain
  balanced : ∀ {symbol replacement}, grammar.rule? symbol = some replacement →
    Balanced (replacement.map op)
  height_le : ∀ {symbol replacement}, grammar.rule? symbol = some replacement →
    ∀ count ≤ replacement.length, height (replacement.map op) count ≤ depth

variable {grammar : Grammar} {op : Char → Op α} {depth : ℤ}

/-! ## One symbol -/

theorem Nests.rise_successor (hnests : grammar.Nests op depth) (symbol : Char) :
    rise ((grammar.successor symbol).map op) = rise [op symbol] := by
  rw [successor]
  cases hrule : grammar.rule? symbol with
  | none => rfl
  | some replacement =>
    rw [rise_of_plain (hnests.plain hrule)]
    exact (hnests.balanced hrule).2

/-- The heights inside a successor are close above the height before or after its symbol. -/
theorem Nests.height_successor (hnests : grammar.Nests op depth) (symbol : Char) {count : ℕ}
    (hcount : count ≤ (grammar.successor symbol).length) :
    ∃ place ≤ 1, height [op symbol] place ≤ height ((grammar.successor symbol).map op) count ∧
      height ((grammar.successor symbol).map op) count ≤ height [op symbol] place + depth := by
  have hdepth := hnests.depth_nonneg
  rw [successor] at hcount ⊢
  cases hrule : grammar.rule? symbol with
  | none =>
    rw [hrule] at hcount
    exact ⟨count, hcount, le_refl _, Int.le_add_of_nonneg_right hdepth⟩
  | some replacement =>
    rw [hrule] at hcount
    have hlow := (hnests.balanced hrule).1 count (by simpa using hcount)
    have hhigh := hnests.height_le hrule count hcount
    exact ⟨0, Nat.zero_le _, by simpa using hlow, by simpa using hhigh⟩

/-! ## One pass -/

/-- Every height of a derived word is close above a height of the word. -/
theorem Nests.height_derive (hnests : grammar.Nests op depth) (word : Word) {count : ℕ}
    (hcount : count ≤ (grammar.derive word).length) :
    ∃ place ≤ word.length,
      height (word.map op) place ≤ height ((grammar.derive word).map op) count ∧
        height ((grammar.derive word).map op) count ≤ height (word.map op) place + depth := by
  induction word generalizing count with
  | nil =>
    have hdepth := hnests.depth_nonneg
    exact ⟨0, Nat.le_refl _, by simp [height], by simpa [height] using hdepth⟩
  | cons symbol rest ih =>
    rw [derive_cons, List.length_append] at hcount
    rw [derive_cons, List.map_append, List.map_cons]
    -- A position lies in the successor of the first symbol or behind it.
    rcases Nat.le_total count (grammar.successor symbol).length with hinside | hafter
    · obtain ⟨place, hplace, hlow, hhigh⟩ := hnests.height_successor symbol hinside
      have hfirst : height (op symbol :: rest.map op) place = height [op symbol] place :=
        @height_append_of_le _ [op symbol] _ _ hplace
      refine ⟨place, by rw [List.length_cons]; omega, ?_⟩
      rw [hfirst, height_append_of_le (by simpa using hinside)]
      exact ⟨hlow, hhigh⟩
    · obtain ⟨offset, rfl⟩ := Nat.exists_eq_add_of_le hafter
      obtain ⟨place, hplace, hlow, hhigh⟩ := @ih offset (by omega)
      have hlater : height ((grammar.successor symbol).map op ++ (grammar.derive rest).map op)
          ((grammar.successor symbol).length + offset) =
            rise [op symbol] + height ((grammar.derive rest).map op) offset := by
        rw [← hnests.rise_successor symbol, ← height_append_add, List.length_map]
      refine ⟨place + 1, by rw [List.length_cons]; omega, ?_⟩
      rw [hlater, height_cons_succ]
      omega

/-! ## All passes -/

theorem Nests.height_generation (hnests : grammar.Nests op depth)
    (hseed : ∀ count ≤ grammar.seed.length, 0 ≤ height (grammar.seed.map op) count)
    (passes : ℕ) {count : ℕ} (hcount : count ≤ (grammar.generation passes).length) :
    0 ≤ height ((grammar.generation passes).map op) count ∧
      height ((grammar.generation passes).map op) count ≤
        peak (grammar.seed.map op) + passes * depth := by
  induction passes generalizing count with
  | zero =>
    rw [generation] at hcount ⊢
    have hpeak : height (grammar.seed.map op) count ≤ peak (grammar.seed.map op) :=
      height_le_peak (by simpa using hcount)
    exact ⟨hseed count hcount, by simpa using hpeak⟩
  | succ passes ih =>
    obtain ⟨place, hplace, hlow, hhigh⟩ := hnests.height_derive (grammar.generation passes) hcount
    obtain ⟨hnonneg, hbound⟩ := ih hplace
    rw [generation]
    constructor
    · omega
    · calc
        _ ≤ height ((grammar.generation passes).map op) place + depth := hhigh
        _ ≤ peak (grammar.seed.map op) + passes * depth + depth := by omega
        _ = _ := by push_cast; ring

end Grammar

end PlantGrowth
