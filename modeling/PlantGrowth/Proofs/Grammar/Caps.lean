import Mathlib.Order.Monotone.Basic
import PlantGrowth.Proofs.Grammar.Overrun

/-!
# What a cap cuts off

Under a higher cap an expansion gets no less far, and asked for more passes it stops where it did. So
raising the cap changes no word that was returned. If no rule erases its symbol, the generations never
become shorter, and the last one decides for all of them whether a cap admits them.
-/

namespace PlantGrowth

namespace Grammar

/-- No rule replaces its symbol by nothing. -/
def NeverErases (grammar : Grammar) : Prop :=
  ∀ symbol replacement, grammar.rule? symbol = some replacement → replacement ≠ []

variable {grammar : Grammar}

theorem neverErases_iff : grammar.NeverErases ↔ ∀ entry ∈ grammar.rules.entries, entry.2 ≠ [] := by
  simp only [NeverErases, rule?, Table.get?_eq_some_iff, Prod.forall]

instance (grammar : Grammar) : Decidable grammar.NeverErases :=
  decidable_of_iff _ neverErases_iff.symm

theorem NeverErases.length_successor_pos (hkeeps : grammar.NeverErases) (symbol : Char) :
    0 < (grammar.successor symbol).length := by
  rw [successor]
  cases hrule : grammar.rule? symbol with
  | none => exact Nat.zero_lt_one
  | some replacement => exact List.length_pos_iff.2 (hkeeps symbol replacement hrule)

theorem NeverErases.length_le_length_derive (hkeeps : grammar.NeverErases) (word : Word) :
    word.length ≤ (grammar.derive word).length := by
  induction word with
  | nil => exact Nat.zero_le _
  | cons symbol rest ih =>
    have hsymbol := hkeeps.length_successor_pos symbol
    rw [derive_cons, List.length_append, List.length_cons]
    omega

theorem NeverErases.monotone_length_generation (hkeeps : grammar.NeverErases) :
    Monotone fun k ↦ (grammar.generation k).length :=
  monotone_nat_of_le_succ fun k ↦ hkeeps.length_le_length_derive (grammar.generation k)

end Grammar

namespace Expander

variable {expander other : Expander} {grammar : Grammar} {passes : ℕ}

/-! ## Higher caps -/

/-- The other expander has a cap that is no lower, or none. -/
def Raises (other expander : Expander) : Prop :=
  ∀ limit ∈ other.cap, ∃ lower ∈ expander.cap, lower ≤ limit

instance (other expander : Expander) : Decidable (other.Raises expander) :=
  inferInstanceAs (Decidable (∀ limit ∈ other.cap, ∃ lower ∈ expander.cap, lower ≤ limit))

theorem Raises.admits (hraises : other.Raises expander) {word : Word}
    (hfit : expander.Admits word) : other.Admits word := by
  intro limit hlimit
  obtain ⟨lower, hlower, hle⟩ := hraises limit hlimit
  exact (hfit lower hlower).trans hle

theorem Raises.admitsAll (hraises : other.Raises expander)
    (hfit : expander.AdmitsAll grammar passes) : other.AdmitsAll grammar passes :=
  fun k hk ↦ hraises.admits (hfit k hk)

theorem Raises.expand_eq_ok (hraises : other.Raises expander) {word : Word}
    (hexpand : expander.expand grammar passes = .ok word) :
    other.expand grammar passes = .ok word := by
  obtain ⟨hfit, hword⟩ := expand_eq_ok_iff.1 hexpand
  exact expand_eq_ok_iff.2 ⟨hraises.admitsAll hfit, hword⟩

theorem Raises.expandEach_eq_ok (hraises : other.Raises expander) {words : List Word}
    (hexpand : expander.expandEach grammar passes = .ok words) :
    other.expandEach grammar passes = .ok words := by
  obtain ⟨hfit, hwords⟩ := expandEach_eq_ok_iff.1 hexpand
  exact expandEach_eq_ok_iff.2 ⟨hraises.admitsAll hfit, hwords⟩

theorem Raises.completed_le (hraises : other.Raises expander) {report higher : ExpansionLimit}
    (hreport : expander.expand grammar passes = .error report)
    (hhigher : other.expand grammar passes = .error higher) :
    report.completed ≤ higher.completed := by
  obtain ⟨first, limit, hfirst, -, -, rfl⟩ := expand_eq_error_iff.1 hreport
  obtain ⟨later, limit, hlater, -, -, rfl⟩ := expand_eq_error_iff.1 hhigher
  have hlong : later ∈ expander.overlong grammar := fun hfit ↦ hlater.1 (hraises.admits hfit)
  have hle := hfirst.2 hlong
  exact Nat.sub_le_sub_right hle 1

/-! ## More passes -/

/-- Nothing that happens after the stop can move it. -/
theorem expand_more_eq_error {report : ExpansionLimit}
    (hreport : expander.expand grammar passes = .error report) {more : ℕ}
    (hmore : report.completed < more) :
    expander.expand grammar more = .error { report with requested := more } := by
  obtain ⟨first, limit, hfirst, -, hcap, rfl⟩ := expand_eq_error_iff.1 hreport
  have hreached : first - 1 < more := hmore
  exact expand_eq_error_iff.2 ⟨first, limit, hfirst, by omega, hcap, rfl⟩

/-! ## Generations that never become shorter -/

theorem admitsAll_iff_admits_last (hkeeps : grammar.NeverErases) :
    expander.AdmitsAll grammar passes ↔ expander.Admits (grammar.generation passes) := by
  constructor
  · intro hall
    exact hall passes (Nat.le_refl _)
  · intro hlast k hk limit hlimit
    exact (hkeeps.monotone_length_generation hk).trans (hlast limit hlimit)

theorem pairwise_length_expandEach (hkeeps : grammar.NeverErases) {words : List Word}
    (hexpand : expander.expandEach grammar passes = .ok words) :
    words.Pairwise fun earlier later ↦ earlier.length ≤ later.length := by
  obtain ⟨-, rfl⟩ := expandEach_eq_ok_iff.1 hexpand
  rw [List.pairwise_map]
  apply List.pairwise_lt_range.imp
  intro earlier later hlt
  exact hkeeps.monotone_length_generation hlt.le

theorem expand_capped_eq_ok_iff (hkeeps : grammar.NeverErases) {limit : ℕ} {word : Word} :
    (⟨some limit⟩ : Expander).expand grammar passes = .ok word ↔
      (grammar.generation passes).length ≤ limit ∧ word = grammar.generation passes := by
  rw [expand_eq_ok_iff, admitsAll_iff_admits_last hkeeps]
  simp [Admits]

end Expander

end PlantGrowth
