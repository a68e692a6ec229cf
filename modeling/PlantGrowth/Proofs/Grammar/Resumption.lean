import PlantGrowth.Proofs.Grammar.Overrun

/-!
# Resumed expansions

An expansion can be taken up again from the word that it returned, under the same rules and the same
cap. The two parts come to one expansion over all their passes: to the same word, or to a stop after
the same passes. When rules have erased the whole word, nothing is left that could grow or stop. And
as a pass replaces each symbol by itself, a word can be cut before an expansion instead of after it.
-/

namespace PlantGrowth

/-! ## Generations of a resumed grammar -/

namespace Grammar

variable {grammar resumed : Grammar}

theorem derive_of_rules (hrules : resumed.rules = grammar.rules) (word : Word) :
    resumed.derive word = grammar.derive word := by
  apply derive_congr
  intro symbol _
  rw [rule?, rule?, hrules]

theorem generation_resumed {first : ℕ} (hrules : resumed.rules = grammar.rules)
    (hseed : resumed.seed = grammar.generation first) (second : ℕ) :
    resumed.generation second = grammar.generation (first + second) := by
  induction second with
  | zero => exact hseed
  | succ second ih => rw [generation, ih, derive_of_rules hrules, ← Nat.add_assoc, generation]

theorem generation_of_erased {first : ℕ} (herased : grammar.generation first = []) (second : ℕ) :
    grammar.generation (first + second) = [] := by
  induction second with
  | zero => exact herased
  | succ second ih => rw [← Nat.add_assoc, generation, ih, derive_nil]

theorem generation_joined {left right joined : Grammar} (hleft : left.rules = joined.rules)
    (hright : right.rules = joined.rules) (hseed : joined.seed = left.seed ++ right.seed)
    (passes : ℕ) :
    joined.generation passes = left.generation passes ++ right.generation passes := by
  induction passes with
  | zero => exact hseed
  | succ passes ih =>
    rw [generation, generation, generation, ih, derive_append, derive_of_rules hleft,
      derive_of_rules hright]

end Grammar

namespace Expander

variable {expander : Expander} {grammar resumed : Grammar} {first : ℕ}

/-! ## Caps in both parts -/

theorem admitsAll_add_iff (hfit : expander.AdmitsAll grammar first)
    (hgeneration : ∀ k, resumed.generation k = grammar.generation (first + k)) (second : ℕ) :
    expander.AdmitsAll grammar (first + second) ↔ expander.AdmitsAll resumed second := by
  constructor
  · intro hall k hk
    rw [hgeneration]
    exact hall (first + k) (by omega)
  · intro hall
    apply hfit.add
    intro k hk
    rw [← hgeneration]
    exact hall k hk

/-- Behind the first part the first generation that is too long stands as far as the passes tell. -/
theorem isLeast_overlong_add (hfit : expander.AdmitsAll grammar first)
    (hgeneration : ∀ k, resumed.generation k = grammar.generation (first + k)) {stop : ℕ}
    (hstop : IsLeast (expander.overlong resumed) stop) :
    IsLeast (expander.overlong grammar) (first + stop) := by
  obtain ⟨hlong, hleast⟩ := hstop
  constructor
  · rw [overlong, Set.mem_ofPred_eq, ← hgeneration]
    exact hlong
  · intro k hk
    have hafter : first < k := by
      by_contra hbefore
      exact hk (hfit k (by omega))
    obtain ⟨offset, rfl⟩ := Nat.exists_eq_add_of_lt hafter
    rw [overlong, Set.mem_ofPred_eq, Nat.add_assoc, ← hgeneration] at hk
    have hoffset := hleast hk
    omega

/-! ## Whole expansions -/

theorem expand_resumed_eq_ok_iff (hfit : expander.AdmitsAll grammar first)
    (hgeneration : ∀ k, resumed.generation k = grammar.generation (first + k)) (second : ℕ)
    (word : Word) :
    expander.expand resumed second = .ok word ↔
      expander.expand grammar (first + second) = .ok word := by
  rw [expand_eq_ok_iff, expand_eq_ok_iff, admitsAll_add_iff hfit hgeneration, hgeneration]

theorem expand_of_resumed_error (hfit : expander.AdmitsAll grammar first)
    (hgeneration : ∀ k, resumed.generation k = grammar.generation (first + k)) {second : ℕ}
    {report : ExpansionLimit} (hreport : expander.expand resumed second = .error report) :
    expander.expand grammar (first + second) =
      .error ⟨first + report.completed, first + second, report.limit⟩ := by
  obtain ⟨stop, limit, hstop, hreached, hcap, rfl⟩ := expand_eq_error_iff.1 hreport
  have hlast : expander.Admits (resumed.generation 0) := by
    rw [hgeneration]
    exact hfit first (Nat.le_refl _)
  -- The seed of the second part has passed already, so its first pass is the one to be reported.
  have hpass : stop ≠ 0 := by
    intro hzero
    rw [hzero] at hstop
    exact hstop.1 hlast
  have hcompleted : first + (stop - 1) = first + stop - 1 := by omega
  rw [expand_eq_error_iff]
  exact ⟨first + stop, limit, isLeast_overlong_add hfit hgeneration hstop, by omega, hcap,
    by rw [hcompleted]⟩

theorem expand_of_erased (hexpand : expander.expand grammar first = .ok []) (second : ℕ) :
    expander.expand grammar (first + second) = .ok [] := by
  obtain ⟨hfit, herased⟩ := expand_eq_ok_iff.1 hexpand
  have hempty := Grammar.generation_of_erased herased.symm
  rw [expand_eq_ok_iff]
  refine ⟨hfit.add ?_, (hempty second).symm⟩
  intro k _
  rw [hempty]
  exact admits_nil expander

end Expander

end PlantGrowth
