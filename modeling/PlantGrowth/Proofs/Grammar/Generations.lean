import Mathlib.Data.List.Basic
import Mathlib.Data.Nat.Find
import Mathlib.Order.Bounds.Basic
import PlantGrowth.Grammar.Expansion

/-!
# Expansions and generations

Generations are words of the grammar alone: the seed, and then each one with all its symbols
replaced at once. An expansion looks up lengths ahead of building and stops at its cap. It returns
exactly the generations when all of them fit under the cap, and otherwise reports the passes before
the first one that does not, whether or not the words left behind are kept.
-/

namespace PlantGrowth

namespace Grammar

/-! ## One pass -/

theorem toList_extend (grammar : Grammar) (built : Array Char) (symbol : Char) :
    (grammar.extend built symbol).toList = built.toList ++ grammar.successor symbol := by
  unfold extend successor
  cases grammar.rule? symbol <;> simp

theorem rewrite_eq_derive (grammar : Grammar) (word : Word) :
    grammar.rewrite word = grammar.derive word := by
  have hbuild (built : Array Char) :
      (word.foldl grammar.extend built).toList = built.toList ++ grammar.derive word := by
    induction word generalizing built with
    | nil => simp
    | cons symbol rest ih =>
      calc
        _ = (grammar.extend built symbol).toList ++ grammar.derive rest := by
          rw [List.foldl_cons, ih]
        _ = built.toList ++ (grammar.successor symbol ++ grammar.derive rest) := by
          rw [toList_extend, List.append_assoc]
        _ = _ := by rw [derive_cons]
  simpa [rewrite] using hbuild #[]

theorem get?_lengths (grammar : Grammar) (symbol : Char) :
    (grammar.lengths.get? symbol).getD 1 = (grammar.successor symbol).length := by
  rw [lengths, Table.get?_mapValues, successor, rule?]
  cases grammar.rules.get? symbol <;> rfl

/-- The length found ahead is the length of the word that the pass builds. -/
theorem derivedLength_eq_length_derive (grammar : Grammar) (word : Word) :
    derivedLength grammar.lengths word = (grammar.derive word).length := by
  have htotal (total : ℕ) :
      word.foldl (fun total symbol ↦ total + (grammar.lengths.get? symbol).getD 1) total =
        total + (grammar.derive word).length := by
    induction word generalizing total with
    | nil => simp
    | cons symbol rest ih =>
      calc
        _ = total + (grammar.successor symbol).length + (grammar.derive rest).length := by
          rw [List.foldl_cons, ih, get?_lengths]
        _ = total + (grammar.successor symbol ++ grammar.derive rest).length := by
          rw [List.length_append, Nat.add_assoc]
        _ = _ := by rw [derive_cons]
  simpa [derivedLength] using htotal 0

/-- A pass reads no rules but those of the symbols of the word. -/
theorem derive_congr {grammar other : Grammar} {word : Word}
    (hrules : ∀ symbol ∈ word, other.rule? symbol = grammar.rule? symbol) :
    other.derive word = grammar.derive word := by
  apply List.flatMap_congr
  intro symbol hsymbol
  rw [successor, successor, hrules symbol hsymbol]

end Grammar

namespace Expander

/-! ## Words under the cap -/

/-- The word is not longer than the cap, if there is one. -/
def Admits (expander : Expander) (word : Word) : Prop :=
  ∀ limit ∈ expander.cap, word.length ≤ limit

instance (expander : Expander) (word : Word) : Decidable (expander.Admits word) :=
  inferInstanceAs (Decidable (∀ limit ∈ expander.cap, word.length ≤ limit))

variable {expander : Expander} {grammar : Grammar} {word : Word}

theorem exists_cap_of_not_admits (hlong : ¬ expander.Admits word) :
    ∃ limit, expander.cap = some limit := by
  cases hcap : expander.cap with
  | none => exact absurd (by simp [Admits, hcap]) hlong
  | some limit => exact ⟨limit, rfl⟩

theorem allow_of_admits (requested completed : ℕ) (hfit : expander.Admits word) :
    expander.allow requested completed word.length = .ok () := by
  unfold allow
  split
  · rfl
  · rename_i limit hcap
    rw [if_pos (hfit limit hcap)]

theorem allow_of_not_admits {limit : ℕ} (requested completed : ℕ) (hcap : expander.cap = some limit)
    (hlong : ¬ expander.Admits word) :
    expander.allow requested completed word.length = .error ⟨completed, requested, limit⟩ := by
  have hlonger : ¬ word.length ≤ limit := by simpa [Admits, hcap] using hlong
  simp only [allow, hcap, if_neg hlonger]

/-! ## The passes -/

theorem advance_succ (requested : ℕ) (keepAll : Bool) (remaining completed : ℕ)
    (kept : Array Word) :
    expander.advance grammar grammar.lengths requested keepAll (remaining + 1) completed
        (grammar.generation completed) kept =
      match expander.allow requested completed (grammar.generation (completed + 1)).length with
      | .error report => .error report
      | .ok () => expander.advance grammar grammar.lengths requested keepAll remaining
          (completed + 1) (grammar.generation (completed + 1))
          (if keepAll then kept.push (grammar.generation completed) else kept) := by
  rw [advance, Grammar.derivedLength_eq_length_derive, Grammar.rewrite_eq_derive]
  rfl

/-- The generations that the passes leave behind, as far as they are kept. -/
def leftBehind (grammar : Grammar) (keepAll : Bool) (completed remaining : ℕ) : List Word :=
  if keepAll then (List.range' completed remaining).map grammar.generation else []

theorem advance_of_admits (requested : ℕ) (keepAll : Bool) {remaining completed : ℕ}
    (kept : Array Word)
    (hfit : ∀ k, completed < k → k ≤ completed + remaining →
      expander.Admits (grammar.generation k)) :
    expander.advance grammar grammar.lengths requested keepAll remaining completed
        (grammar.generation completed) kept =
      .ok ((kept ++ leftBehind grammar keepAll completed remaining).push
        (grammar.generation (completed + remaining))) := by
  induction remaining generalizing completed kept with
  | zero => simp [advance, leftBehind]
  | succ remaining ih =>
    have hnext : expander.Admits (grammar.generation (completed + 1)) :=
      hfit (completed + 1) (by omega) (by omega)
    rw [advance_succ, allow_of_admits requested completed hnext]
    simp only
    rw [ih _ fun k hafter hbefore ↦ hfit k (by omega) (by omega)]
    have hlast : completed + 1 + remaining = completed + (remaining + 1) := by omega
    cases keepAll <;> simp [leftBehind, hlast, List.range'_succ]

/-- The passes stop at the first generation that is too long. -/
theorem advance_of_not_admits {limit : ℕ} (requested : ℕ) (keepAll : Bool)
    {remaining completed last : ℕ} (kept : Array Word) (hcap : expander.cap = some limit)
    (hstart : completed ≤ last) (hend : last < completed + remaining)
    (hfit : ∀ k, completed < k → k ≤ last → expander.Admits (grammar.generation k))
    (hlong : ¬ expander.Admits (grammar.generation (last + 1))) :
    expander.advance grammar grammar.lengths requested keepAll remaining completed
        (grammar.generation completed) kept = .error ⟨last, requested, limit⟩ := by
  induction remaining generalizing completed kept with
  | zero => omega
  | succ remaining ih =>
    rw [advance_succ]
    rcases Nat.eq_or_lt_of_le hstart with heq | hlt
    · subst heq
      rw [allow_of_not_admits requested completed hcap hlong]
    · rw [allow_of_admits requested completed (hfit (completed + 1) (by omega) (by omega))]
      exact ih _ (by omega) (by omega) fun k hafter hbefore ↦ hfit k (by omega) hbefore

/-! ## Whole expansions -/

/-- All generations up to the last requested one are under the cap. -/
def AdmitsAll (expander : Expander) (grammar : Grammar) (passes : ℕ) : Prop :=
  ∀ k ≤ passes, expander.Admits (grammar.generation k)

/-- The passes completed before the first generation that is too long. None is completed if that
generation is the seed. -/
def StopsAfter (expander : Expander) (grammar : Grammar) (completed : ℕ) : Prop :=
  (¬ expander.Admits grammar.seed ∧ completed = 0) ∨
    (expander.Admits grammar.seed ∧
      IsLeast {k | ¬ expander.Admits (grammar.generation (k + 1))} completed)

theorem run_of_admitsAll {passes : ℕ} (keepAll : Bool)
    (hfit : expander.AdmitsAll grammar passes) :
    expander.run grammar passes keepAll =
      .ok ((leftBehind grammar keepAll 0 passes).toArray.push (grammar.generation passes)) := by
  have hseed : expander.Admits grammar.seed := hfit 0 (Nat.zero_le _)
  have hpasses := @advance_of_admits expander grammar passes keepAll passes 0 #[]
    fun k _ hbefore ↦ hfit k (by omega)
  rw [run, allow_of_admits passes 0 hseed]
  simpa [Grammar.generation] using hpasses

theorem run_of_stopsAfter {passes completed limit : ℕ} (keepAll : Bool)
    (hcap : expander.cap = some limit) (hlong : ¬ expander.AdmitsAll grammar passes)
    (hstop : expander.StopsAfter grammar completed) :
    expander.run grammar passes keepAll = .error ⟨completed, passes, limit⟩ := by
  rcases hstop with ⟨hseed, rfl⟩ | ⟨hseed, hnext, hleast⟩
  · rw [run, allow_of_not_admits passes 0 hcap hseed]
  · have hbefore : ∀ k ≤ completed, expander.Admits (grammar.generation k) := by
      intro k hk
      cases k with
      | zero => exact hseed
      | succ k =>
        by_contra hfails
        have := hleast hfails
        omega
    have hreached : completed < passes := by
      by_contra hafter
      exact hlong fun k hk ↦ hbefore k (by omega)
    rw [run, allow_of_admits passes 0 hseed]
    exact advance_of_not_admits passes keepAll #[] hcap (Nat.zero_le _) (by omega)
      (fun k _ hk ↦ hbefore k hk) hnext

theorem exists_stopsAfter {passes : ℕ} (hlong : ¬ expander.AdmitsAll grammar passes) :
    ∃ limit completed, expander.cap = some limit ∧ expander.StopsAfter grammar completed := by
  classical
  obtain ⟨first, hfirst⟩ : ∃ k, ¬ expander.Admits (grammar.generation k) := by
    by_contra hall
    push Not at hall
    exact hlong fun k _ ↦ hall k
  obtain ⟨limit, hcap⟩ := exists_cap_of_not_admits hfirst
  by_cases hseed : expander.Admits grammar.seed
  · have hnext : ∃ k, ¬ expander.Admits (grammar.generation (k + 1)) := by
      cases first with
      | zero => exact absurd hseed hfirst
      | succ k => exact ⟨k, hfirst⟩
    exact ⟨limit, Nat.find hnext, hcap,
      Or.inr ⟨hseed, Nat.find_spec hnext, fun k hk ↦ Nat.find_min' hnext hk⟩⟩
  · exact ⟨limit, 0, hcap, Or.inl ⟨hseed, rfl⟩⟩

theorem expandEach_of_admitsAll {passes : ℕ} (hfit : expander.AdmitsAll grammar passes) :
    expander.expandEach grammar passes =
      .ok ((List.range (passes + 1)).map grammar.generation) := by
  rw [expandEach, run_of_admitsAll true hfit]
  simp [Except.map, leftBehind, List.range_eq_range', List.range'_concat]

theorem expand_of_admitsAll {passes : ℕ} (hfit : expander.AdmitsAll grammar passes) :
    expander.expand grammar passes = .ok (grammar.generation passes) := by
  rw [expand, run_of_admitsAll false hfit]
  simp [Except.map]

/-- Whatever an expansion returns is the last requested generation. -/
theorem eq_generation_of_expand {passes : ℕ} (hexpand : expander.expand grammar passes = .ok word) :
    word = grammar.generation passes := by
  by_cases hfit : expander.AdmitsAll grammar passes
  · rw [expand_of_admitsAll hfit] at hexpand
    cases hexpand
    rfl
  · obtain ⟨limit, completed, hcap, hstop⟩ := exists_stopsAfter hfit
    rw [expand, run_of_stopsAfter false hcap hfit hstop] at hexpand
    cases hexpand

theorem admits_congr {other : Word} (hlength : other.length = word.length) :
    expander.Admits other ↔ expander.Admits word := by
  rw [Admits, Admits, hlength]

/-- Grammars with equally long generations expand alike: they have the same reports, and what they
return corresponds as their generations do. -/
theorem expansions_correspond {β : Type} {other : Grammar} {view otherView : Word → β}
    (hlength : ∀ k, (other.generation k).length = (grammar.generation k).length)
    (hview : ∀ k, otherView (other.generation k) = view (grammar.generation k))
    (expander : Expander) (passes : ℕ) :
    (expander.expandEach other passes).map (List.map otherView) =
        (expander.expandEach grammar passes).map (List.map view) ∧
      (expander.expand other passes).map otherView = (expander.expand grammar passes).map view := by
  have hadmits (k : ℕ) : expander.Admits (other.generation k) ↔
      expander.Admits (grammar.generation k) := admits_congr (hlength k)
  have hall : expander.AdmitsAll other passes ↔ expander.AdmitsAll grammar passes := by
    simp only [AdmitsAll, hadmits]
  by_cases hfit : expander.AdmitsAll grammar passes
  · rw [expandEach_of_admitsAll hfit, expandEach_of_admitsAll (hall.2 hfit),
      expand_of_admitsAll hfit, expand_of_admitsAll (hall.2 hfit)]
    simp [Except.map, hview]
  · obtain ⟨limit, completed, hcap, hstop⟩ := exists_stopsAfter hfit
    have hseed : expander.Admits other.seed ↔ expander.Admits grammar.seed := hadmits 0
    have hotherStop : expander.StopsAfter other completed := by
      simp only [StopsAfter, hseed, hadmits]
      exact hstop
    have hrun (keepAll : Bool) : expander.run other passes keepAll =
        expander.run grammar passes keepAll := by
      rw [run_of_stopsAfter keepAll hcap hfit hstop,
        run_of_stopsAfter keepAll hcap (mt hall.1 hfit) hotherStop]
    rw [expandEach, expandEach, expand, expand, hrun, hrun,
      run_of_stopsAfter true hcap hfit hstop, run_of_stopsAfter false hcap hfit hstop]
    exact ⟨rfl, rfl⟩

/-- An expansion succeeds exactly when all generations fit under the cap, and then returns them;
otherwise both ways of expanding end with the same report. -/
theorem expansion_follows_generations (expander : Expander) (grammar : Grammar) (passes : ℕ) :
    ((∃ words, expander.expandEach grammar passes = .ok words) ↔
      ∀ k ≤ passes, expander.Admits (grammar.generation k)) ∧
    ((expander.expandEach grammar passes =
          .ok ((List.range (passes + 1)).map grammar.generation) ∧
        expander.expand grammar passes = .ok (grammar.generation passes)) ∨
      ∃ limit completed, expander.cap = some limit ∧
        expander.StopsAfter grammar completed ∧
        expander.expandEach grammar passes = .error ⟨completed, passes, limit⟩ ∧
        expander.expand grammar passes = .error ⟨completed, passes, limit⟩) := by
  by_cases hfit : expander.AdmitsAll grammar passes
  · have heach := expandEach_of_admitsAll hfit
    exact ⟨⟨fun _ ↦ hfit, fun _ ↦ ⟨_, heach⟩⟩, Or.inl ⟨heach, expand_of_admitsAll hfit⟩⟩
  · obtain ⟨limit, completed, hcap, hstop⟩ := exists_stopsAfter hfit
    have heach : expander.expandEach grammar passes = .error ⟨completed, passes, limit⟩ := by
      rw [expandEach, run_of_stopsAfter true hcap hfit hstop]
      rfl
    have hlast : expander.expand grammar passes = .error ⟨completed, passes, limit⟩ := by
      rw [expand, run_of_stopsAfter false hcap hfit hstop]
      rfl
    refine ⟨⟨?_, fun hall ↦ absurd hall hfit⟩, Or.inr ⟨limit, completed, hcap, hstop, heach, hlast⟩⟩
    intro hok
    obtain ⟨words, hwords⟩ := hok
    rw [heach] at hwords
    cases hwords

/-- A generation in the middle that is too long is not passed over, even if the next is empty. -/
example : (⟨some 2⟩ : Expander).expand
    ⟨['A'], Table.ofList [('A', ['B', 'B', 'B']), ('B', [])], by decide⟩ 2 =
      .error ⟨0, 2, 2⟩ := by decide

end Expander

end PlantGrowth
