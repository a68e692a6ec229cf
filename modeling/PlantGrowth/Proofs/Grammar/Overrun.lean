import PlantGrowth.Proofs.Grammar.Generations

/-!
# The first generation that is too long

Under a cap everything about an expansion follows from one number, the index of the first generation
that does not fit. An expansion is complete when it ends before that index. Otherwise its report has
the passes before the index, which is none both for the seed and for the first generation after it.
-/

namespace PlantGrowth.Expander

/-- The indices of the generations that are longer than the cap. -/
def overlong (expander : Expander) (grammar : Grammar) : Set ℕ :=
  {k | ¬ expander.Admits (grammar.generation k)}

variable {expander : Expander} {grammar : Grammar} {passes first : ℕ}

theorem admits_nil (expander : Expander) : expander.Admits [] := fun _ _ ↦ Nat.zero_le _

theorem admitsAll_iff_not_overlong :
    expander.AdmitsAll grammar passes ↔ ∀ k ≤ passes, k ∉ expander.overlong grammar := by
  simp only [AdmitsAll, overlong, Set.mem_ofPred_eq, not_not]

theorem admitsAll_iff_lt (hfirst : IsLeast (expander.overlong grammar) first) :
    expander.AdmitsAll grammar passes ↔ passes < first := by
  rw [admitsAll_iff_not_overlong]
  constructor
  · intro hnone
    by_contra hreached
    exact hnone first (by omega) hfirst.1
  · intro hbefore k hk hlong
    have := hfirst.2 hlong
    omega

theorem AdmitsAll.add {further : ℕ} (hfit : expander.AdmitsAll grammar passes)
    (hfurther : ∀ k ≤ further, expander.Admits (grammar.generation (passes + k))) :
    expander.AdmitsAll grammar (passes + further) := by
  intro k hk
  rcases Nat.le_total k passes with hbefore | hafter
  · exact hfit k hbefore
  · obtain ⟨offset, rfl⟩ := Nat.exists_eq_add_of_le hafter
    exact hfurther offset (by omega)

/-- The seed counts as the result of no pass, so it is reported as if it were the first result. -/
theorem stopsAfter_iff {completed : ℕ} :
    expander.StopsAfter grammar completed ↔
      ∃ first, IsLeast (expander.overlong grammar) first ∧ completed = first - 1 := by
  constructor
  · intro hstop
    rcases hstop with ⟨hseed, rfl⟩ | ⟨hseed, hnext, hleast⟩
    · exact ⟨0, ⟨hseed, fun k _ ↦ Nat.zero_le k⟩, rfl⟩
    · refine ⟨completed + 1, ⟨hnext, ?_⟩, rfl⟩
      intro k hlong
      cases k with
      | zero => exact absurd hseed hlong
      | succ k => exact Nat.succ_le_succ (hleast hlong)
  · intro hexists
    obtain ⟨first, ⟨hlong, hleast⟩, rfl⟩ := hexists
    cases first with
    | zero => exact Or.inl ⟨hlong, rfl⟩
    | succ first =>
      have hseed : expander.Admits grammar.seed := by
        by_contra hseed
        have hfirst := @hleast 0 hseed
        omega
      exact Or.inr ⟨hseed, hlong, fun k hk ↦ Nat.le_of_succ_le_succ (hleast hk)⟩

/-! ## Outcomes -/

/-- Passes that are not all admitted reach the first generation that is too long and stop there. -/
theorem exists_stop (hlong : ¬ expander.AdmitsAll grammar passes) :
    ∃ first limit, IsLeast (expander.overlong grammar) first ∧ first ≤ passes ∧
      expander.cap = some limit ∧
      ∀ keepAll, expander.run grammar passes keepAll = .error ⟨first - 1, passes, limit⟩ := by
  obtain ⟨limit, completed, hcap, hstop⟩ := exists_stopsAfter hlong
  obtain ⟨first, hfirst, rfl⟩ := stopsAfter_iff.1 hstop
  have hreached : first ≤ passes := by
    rw [admitsAll_iff_lt hfirst] at hlong
    omega
  exact ⟨first, limit, hfirst, hreached, hcap,
    fun keepAll ↦ run_of_stopsAfter keepAll hcap hlong hstop⟩

theorem expand_eq_ok_iff {word : Word} :
    expander.expand grammar passes = .ok word ↔
      expander.AdmitsAll grammar passes ∧ word = grammar.generation passes := by
  by_cases hfit : expander.AdmitsAll grammar passes
  · rw [expand_of_admitsAll hfit]
    simp [hfit, eq_comm]
  · obtain ⟨first, limit, -, -, -, hrun⟩ := exists_stop hfit
    rw [expand, hrun]
    simp [hfit, Except.map]

theorem expandEach_eq_ok_iff {words : List Word} :
    expander.expandEach grammar passes = .ok words ↔
      expander.AdmitsAll grammar passes ∧
        words = (List.range (passes + 1)).map grammar.generation := by
  by_cases hfit : expander.AdmitsAll grammar passes
  · rw [expandEach_of_admitsAll hfit]
    simp [hfit, eq_comm]
  · obtain ⟨first, limit, -, -, -, hrun⟩ := exists_stop hfit
    rw [expandEach, hrun]
    simp [hfit, Except.map]

theorem expand_eq_error_iff {report : ExpansionLimit} :
    expander.expand grammar passes = .error report ↔
      ∃ first limit, IsLeast (expander.overlong grammar) first ∧ first ≤ passes ∧
        expander.cap = some limit ∧ report = ⟨first - 1, passes, limit⟩ := by
  constructor
  · intro hexpand
    have hlong : ¬ expander.AdmitsAll grammar passes := by
      intro hfit
      rw [expand_of_admitsAll hfit] at hexpand
      cases hexpand
    obtain ⟨first, limit, hfirst, hreached, hcap, hrun⟩ := exists_stop hlong
    rw [expand, hrun] at hexpand
    cases hexpand
    exact ⟨first, limit, hfirst, hreached, hcap, rfl⟩
  · intro hexists
    obtain ⟨first, limit, hfirst, hreached, hcap, rfl⟩ := hexists
    have hlong : ¬ expander.AdmitsAll grammar passes := by
      rw [admitsAll_iff_lt hfirst]
      omega
    have hstop : expander.StopsAfter grammar (first - 1) := stopsAfter_iff.2 ⟨first, hfirst, rfl⟩
    rw [expand, run_of_stopsAfter false hcap hlong hstop]
    rfl

/-- Without a cap every expansion is complete. -/
theorem expand_uncapped (grammar : Grammar) (passes : ℕ) :
    uncapped.expand grammar passes = .ok (grammar.generation passes) := by
  apply expand_of_admitsAll
  intro k _ limit hcap
  cases hcap

/-- A seed that doubles in every pass. -/
def doubling (seed : Word) (hseed : seed ≠ []) : Grammar where
  seed := seed
  rules := Table.ofList [('F', ['F', 'F'])]
  seed_ne_nil := hseed

/-- Eight symbols fit under the cap and sixteen do not. -/
example : (⟨some 10⟩ : Expander).expand (doubling ['F'] (by decide)) 5 = .error ⟨3, 5, 10⟩ := rfl

end PlantGrowth.Expander
