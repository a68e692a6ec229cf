import PlantGrowth.Proofs.Grammar.Generations

/-!
# Rules that are never used

A grammar reaches the symbols of its seed and those of the replacements of what it reaches. No other
symbol occurs in a generation, so the rules of the others are dead: two grammars with one seed that
agree on what is reached expand alike under every cap, whatever their other rules are.
-/

namespace PlantGrowth

namespace Grammar

/-- The symbols that passes from the seed can lead to. -/
inductive Reaches (grammar : Grammar) : Char → Prop
  | seed {symbol : Char} (hseed : symbol ∈ grammar.seed) : Reaches grammar symbol
  | replacement {symbol next : Char} {replacement : Word} (hreaches : Reaches grammar symbol)
    (hrule : grammar.rule? symbol = some replacement) (hnext : next ∈ replacement) :
    Reaches grammar next

variable {grammar other : Grammar}

theorem Reaches.successor {symbol next : Char} (hreaches : grammar.Reaches symbol)
    (hnext : next ∈ grammar.successor symbol) : grammar.Reaches next := by
  rw [Grammar.successor] at hnext
  cases hrule : grammar.rule? symbol with
  | none =>
    rw [hrule] at hnext
    rwa [List.mem_singleton.1 hnext]
  | some replacement =>
    rw [hrule] at hnext
    exact hreaches.replacement hrule hnext

/-- No pass leaves the symbols that are reached. -/
theorem reaches_of_mem_generation {passes : ℕ} {symbol : Char}
    (hsymbol : symbol ∈ grammar.generation passes) : grammar.Reaches symbol := by
  induction passes generalizing symbol with
  | zero => exact .seed hsymbol
  | succ passes ih =>
    obtain ⟨earlier, hearlier, hnext⟩ := List.mem_flatMap.1 hsymbol
    exact (ih hearlier).successor hnext

/-- Whatever has the seed and is not left by a pass has all that is reached. -/
theorem Reaches.mem_of_closed {symbols : Word} (hseed : grammar.seed ⊆ symbols)
    (hclosed : grammar.derive symbols ⊆ symbols) {symbol : Char}
    (hreaches : grammar.Reaches symbol) : symbol ∈ symbols := by
  induction hreaches with
  | seed hsymbol => exact hseed hsymbol
  | @replacement symbol next replacement _ hrule hnext ih =>
    have hsuccessor : grammar.successor symbol = replacement := by
      rw [Grammar.successor, hrule]
      rfl
    exact hclosed (List.mem_flatMap.2 ⟨symbol, ih, hsuccessor ▸ hnext⟩)

/-! ## Grammars that agree on what is reached -/

theorem generation_of_agree (hseed : other.seed = grammar.seed)
    (hrules : ∀ symbol, grammar.Reaches symbol → other.rule? symbol = grammar.rule? symbol)
    (passes : ℕ) : other.generation passes = grammar.generation passes := by
  induction passes with
  | zero => exact hseed
  | succ passes ih =>
    rw [generation, generation, ih]
    apply derive_congr
    intro symbol hsymbol
    exact hrules symbol (reaches_of_mem_generation hsymbol)

/-- A seed of symbols without rules is all that is reached, and no pass changes it. -/
theorem generation_of_plain_seed (hplain : ∀ symbol ∈ grammar.seed, grammar.rule? symbol = none)
    (passes : ℕ) : grammar.generation passes = grammar.seed := by
  induction passes with
  | zero => rfl
  | succ passes ih =>
    calc
      _ = grammar.derive grammar.seed := by rw [generation, ih]
      _ = grammar.seed.flatMap List.singleton := by
        apply List.flatMap_congr
        intro symbol hsymbol
        rw [successor, hplain symbol hsymbol]
        rfl
      _ = grammar.seed := List.flatMap_singleton' grammar.seed

end Grammar

namespace Expander

variable {expander : Expander} {grammar other : Grammar}

theorem expansions_of_agree (hseed : other.seed = grammar.seed)
    (hrules : ∀ symbol, grammar.Reaches symbol → other.rule? symbol = grammar.rule? symbol)
    (expander : Expander) (passes : ℕ) :
    expander.expandEach other passes = expander.expandEach grammar passes ∧
      expander.expand other passes = expander.expand grammar passes := by
  have hgeneration := Grammar.generation_of_agree hseed hrules
  have hlength (k : ℕ) : (other.generation k).length = (grammar.generation k).length := by
    rw [hgeneration]
  have hview (k : ℕ) : id (other.generation k) = id (grammar.generation k) := hgeneration k
  simpa [Except.map_id] using expansions_correspond hlength hview expander passes

/-! ## Seeds that stay as they are -/

theorem expansions_of_plain_seed (hplain : ∀ symbol ∈ grammar.seed, grammar.rule? symbol = none)
    (hfit : expander.Admits grammar.seed) (passes : ℕ) :
    expander.expandEach grammar passes = .ok (List.replicate (passes + 1) grammar.seed) ∧
      expander.expand grammar passes = .ok grammar.seed := by
  have hgeneration : grammar.generation = fun _ ↦ grammar.seed :=
    funext (Grammar.generation_of_plain_seed hplain)
  have hall : expander.AdmitsAll grammar passes := by
    intro k _
    rw [hgeneration]
    exact hfit
  rw [expandEach_of_admitsAll hall, expand_of_admitsAll hall, hgeneration, List.map_const',
    List.length_range]
  exact ⟨rfl, rfl⟩

theorem expansions_of_long_seed {limit : ℕ} (hcap : expander.cap = some limit)
    (hlong : limit < grammar.seed.length) (passes : ℕ) :
    expander.expandEach grammar passes = .error ⟨0, passes, limit⟩ ∧
      expander.expand grammar passes = .error ⟨0, passes, limit⟩ := by
  have hseed : ¬ expander.Admits grammar.seed := fun hfit ↦ Nat.not_lt.2 (hfit limit hcap) hlong
  have hrefused : ¬ expander.AdmitsAll grammar passes := fun hall ↦ hseed (hall 0 (Nat.zero_le _))
  have hrun (keepAll : Bool) : expander.run grammar passes keepAll = .error ⟨0, passes, limit⟩ :=
    run_of_stopsAfter keepAll hcap hrefused (Or.inl ⟨hseed, rfl⟩)
  rw [expandEach, expand, hrun, hrun]
  exact ⟨rfl, rfl⟩

/-- Grammars with one seed that agree on the rules of all symbols reached from it expand alike under
every cap. If the seed itself has no symbol with a rule, every generation is the seed, and a cap can
refuse nothing else. -/
theorem dead_rules_are_inert :
    (∀ grammar other : Grammar, other.seed = grammar.seed →
      (∀ symbol, grammar.Reaches symbol → other.rule? symbol = grammar.rule? symbol) →
      ∀ (expander : Expander) (passes : ℕ),
        expander.expandEach other passes = expander.expandEach grammar passes ∧
          expander.expand other passes = expander.expand grammar passes) ∧
    ∀ grammar : Grammar, (∀ symbol ∈ grammar.seed, grammar.rule? symbol = none) →
      (∀ passes : ℕ, grammar.generation passes = grammar.seed) ∧
      ∀ (expander : Expander) (passes : ℕ),
        (expander.Admits grammar.seed →
          expander.expandEach grammar passes = .ok (List.replicate (passes + 1) grammar.seed) ∧
            expander.expand grammar passes = .ok grammar.seed) ∧
        ∀ limit, expander.cap = some limit → limit < grammar.seed.length →
          expander.expandEach grammar passes = .error ⟨0, passes, limit⟩ ∧
            expander.expand grammar passes = .error ⟨0, passes, limit⟩ := by
  constructor
  · intro grammar other hseed hrules expander passes
    exact expansions_of_agree hseed hrules expander passes
  · intro grammar hplain
    refine ⟨Grammar.generation_of_plain_seed hplain, ?_⟩
    intro expander passes
    exact ⟨fun hfit ↦ expansions_of_plain_seed hplain hfit passes,
      fun limit hcap hlong ↦ expansions_of_long_seed hcap hlong passes⟩

/-- Two rules that call on each other, and others beside them. -/
def algae (others : List (Char × Word)) : Grammar where
  seed := ['A']
  rules := Table.ofList (('A', ['A', 'B']) :: ('B', ['A']) :: others)
  seed_ne_nil := by decide

/-- A long replacement that is never reached, and a seed beside a rule for another symbol. -/
theorem dead_rules_are_inert_algae :
    (⟨some 12⟩ : Expander).expand (algae [('Q', List.replicate 50 'Q')]) 6 =
        (⟨some 12⟩ : Expander).expand (algae []) 6 ∧
    (⟨some 2⟩ : Expander).expand ⟨['F', 'é'], Table.ofList [('Q', [])], by decide⟩ 3 =
        .ok ['F', 'é'] ∧
    (⟨some 1⟩ : Expander).expandEach ⟨['F', 'é'], Table.ofList [('Q', [])], by decide⟩ 3 =
        .error ⟨0, 3, 1⟩ := by
  obtain ⟨hagree, hplain⟩ := dead_rules_are_inert
  have hrules : ∀ symbol, (algae []).Reaches symbol →
      (algae [('Q', List.replicate 50 'Q')]).rule? symbol = (algae []).rule? symbol := by
    intro symbol hsymbol
    have hreached : symbol ∈ ['A', 'B'] := hsymbol.mem_of_closed (by decide) (by decide)
    rcases List.mem_pair.1 hreached with rfl | rfl <;> rfl
  obtain ⟨-, hseed⟩ := hplain ⟨['F', 'é'], Table.ofList [('Q', [])], by decide⟩ (by
    intro symbol hsymbol
    rcases List.mem_pair.1 hsymbol with rfl | rfl <;> rfl)
  have hexpansions := hagree (algae []) (algae [('Q', List.replicate 50 'Q')]) rfl hrules
  exact ⟨(hexpansions _ 6).2, ((hseed _ 3).1 (by decide)).2,
    ((hseed _ 3).2 1 rfl (by decide)).1⟩

end Expander

end PlantGrowth
