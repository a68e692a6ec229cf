import PlantGrowth.Proofs.Grammar.Rule
import PlantGrowth.Proofs.Number.Sign
import PlantGrowth.Proofs.Turtle.Convention

/-!
# Histories of rules and conventions

Grammars and conventions are made by one change after another. However long the history, each symbol
has what it was given last, and the listing has the symbols that have something in the order of their
code points, each once. So nothing else of a history is left in a table.
-/

namespace PlantGrowth

open Table (lastWritten?)

theorem Table.pairwise_keys {β : Type} (table : Table Char β) :
    table.keys.Pairwise fun earlier later ↦ earlier.toNat < later.toNat := by
  rw [keys, List.pairwise_map]
  exact table.ascending.imp fun hbefore ↦ of_decide_eq_true hbefore

/-! ## Rules -/

namespace Grammar

theorem rules_setRules (grammar : Grammar) (rules : List (Char × Word)) :
    (grammar.setRules rules).rules =
      rules.foldl (fun table rule ↦ table.insert rule.1 rule.2) grammar.rules := by
  induction rules generalizing grammar with
  | nil => rfl
  | cons rule rest ih => exact ih (grammar.setRule rule.1 rule.2)

theorem seed_setRules (grammar : Grammar) (rules : List (Char × Word)) :
    (grammar.setRules rules).seed = grammar.seed := by
  induction rules generalizing grammar with
  | nil => rfl
  | cons rule rest ih => exact ih (grammar.setRule rule.1 rule.2)

theorem rule?_setRules (grammar : Grammar) (rules : List (Char × Word)) (symbol : Char) :
    (grammar.setRules rules).rule? symbol = (lastWritten? rules symbol).or (grammar.rule? symbol) := by
  rw [rule?, rules_setRules, Table.get?_foldl_insert, rule?]

theorem mem_keys_setRules {grammar : Grammar} {rules : List (Char × Word)} {symbol : Char} :
    symbol ∈ (grammar.setRules rules).rules.keys ↔
      symbol ∈ grammar.rules.keys ∨ symbol ∈ rules.map Prod.fst := by
  rw [Table.mem_keys_iff, Table.mem_keys_iff, ← Table.isSome_lastWritten?, ← rule?, rule?_setRules,
    Option.isSome_or, Bool.or_eq_true, or_comm, rule?]

theorem ruleCount_setRules (grammar : Grammar) (rules : List (Char × Word)) :
    (grammar.setRules rules).ruleCount =
      (grammar.rules.keys ++ rules.map Prod.fst).dedup.length := by
  rw [ruleCount, rules_setRules, Table.size_foldl_insert]

/-- A change of the rules. -/
inductive Edit
  | assign (symbol : Char) (replacement : Word)
  | written (text : Word)

/-- The rules that a change sets: the one that it states, if it is not malformed. -/
def Edit.writes : Edit → List (Char × Word)
  | .assign symbol replacement => [(symbol, replacement)]
  | .written text =>
    match Rule.parse text with
    | .ok rule => [(rule.symbol, rule.replacement)]
    | .error _ => []

def edit (grammar : Grammar) : Edit → Grammar
  | .assign symbol replacement => grammar.setRule symbol replacement
  | .written text =>
    match grammar.setWrittenRule text with
    | .ok changed => changed
    | .error _ => grammar

def edited (grammar : Grammar) (history : List Edit) : Grammar := history.foldl edit grammar

theorem edit_eq_setRules (grammar : Grammar) (edit : Edit) :
    grammar.edit edit = grammar.setRules edit.writes := by
  cases edit with
  | assign symbol replacement => rfl
  | written text =>
    cases hparse : Rule.parse text with
    | ok rule =>
      simp only [Grammar.edit, Edit.writes, setWrittenRule, hparse]
      rfl
    | error malformed =>
      simp only [Grammar.edit, Edit.writes, setWrittenRule, hparse]
      rfl

theorem edited_eq_setRules (grammar : Grammar) (history : List Edit) :
    grammar.edited history = grammar.setRules (history.flatMap Edit.writes) := by
  rw [edited, setRules, List.foldl_flatMap]
  congr 1
  funext current change
  exact edit_eq_setRules current change

end Grammar

/-! ## Tables of symbols -/

open Turtle in
/-- Whatever was done to a convention, each symbol has the operation that it was given last, and the
listing has the symbols whose operation is not to be ignored, in the order of their code points. So
conventions that agree on every symbol have one listing and compare as equal, unless an operation
carries a number that is none, and the order of changes to different symbols does not matter. The
rules of a grammar keep to the same law: a symbol has the replacement that was set last, the listing
has the symbols that ever had one set, and a malformed text sets none. -/
theorem symbol_tables_are_canonical :
    (∀ (convention : Convention Float32) (history : List (Convention.Edit Float32)),
      (∀ symbol, (convention.edited history).op symbol =
        (lastWritten? (history.flatMap Convention.Edit.writes) symbol).getD (convention.op symbol)) ∧
      (convention.edited history).ops.keys.Pairwise (fun earlier later ↦
        earlier.toNat < later.toNat) ∧
      ∀ symbol op, (symbol, op) ∈ (convention.edited history).ops.entries ↔
        (convention.edited history).op symbol = op ∧ op ≠ .ignore) ∧
    ((∀ symbol, (Convention.empty : Convention Float32).op symbol = .ignore) ∧
      (Convention.standard : Convention Float32) = Convention.empty.edited [.standard]) ∧
    (∀ first second : Convention Float32,
      ((first == second) = true ↔ ∀ symbol, (first.op symbol == second.op symbol) = true) ∧
      ((∀ symbol, first.op symbol = second.op symbol) →
        first.ops.entries = second.ops.entries ∧
        ((∀ symbol, ∀ number ∈ (first.op symbol).numbers, number.isNaN = false) →
          (first == second) = true))) ∧
    (∀ (convention : Convention Float32) (symbol other : Char), symbol ≠ other →
      ∀ op otherOp, (convention.set symbol op).set other otherOp =
        (convention.set other otherOp).set symbol op) ∧
    (∀ (grammar : Grammar) (history : List Grammar.Edit),
      (∀ symbol, (grammar.edited history).rule? symbol =
        (lastWritten? (history.flatMap Grammar.Edit.writes) symbol).or (grammar.rule? symbol)) ∧
      (grammar.edited history).rules.keys.Pairwise (fun earlier later ↦
        earlier.toNat < later.toNat) ∧
      (∀ symbol replacement, (symbol, replacement) ∈ (grammar.edited history).rules.entries ↔
        (grammar.edited history).rule? symbol = some replacement) ∧
      (∀ symbol, symbol ∈ (grammar.edited history).rules.keys ↔
        symbol ∈ grammar.rules.keys ∨
          symbol ∈ (history.flatMap Grammar.Edit.writes).map Prod.fst) ∧
      (grammar.edited history).ruleCount =
        (grammar.rules.keys ++ (history.flatMap Grammar.Edit.writes).map Prod.fst).dedup.length ∧
      (grammar.edited history).seed = grammar.seed) ∧
    ∀ (grammar : Grammar) (text : Word) (malformed : MalformedRule),
      Rule.parse text = .error malformed →
        grammar.setWrittenRule text = .error malformed ∧ grammar.edit (.written text) = grammar := by
  refine ⟨?_, ⟨fun _ ↦ rfl, rfl⟩, ?_, ?_, ?_, ?_⟩
  · intro convention history
    exact ⟨convention.op_edited history, Table.pairwise_keys _, fun _ _ ↦ Convention.mem_entries_iff⟩
  · intro first second
    refine ⟨Convention.beq_iff, ?_⟩
    intro hsame
    obtain rfl := Convention.ext_op hsame
    refine ⟨rfl, ?_⟩
    intro hnumbers
    rw [Convention.beq_iff]
    intro symbol
    rw [Op.beq_self_eq, List.all_eq_true]
    intro number hnumber
    rw [Number.beq_self_eq, hnumbers symbol number hnumber]
    rfl
  · intro convention symbol other hne op otherOp
    exact convention.set_comm hne op otherOp
  · intro grammar history
    rw [Grammar.edited_eq_setRules]
    exact ⟨grammar.rule?_setRules _, Table.pairwise_keys _,
      fun _ _ ↦ Table.get?_eq_some_iff.symm, fun _ ↦ Grammar.mem_keys_setRules,
      grammar.ruleCount_setRules _, grammar.seed_setRules _⟩
  · intro grammar text malformed hparse
    have herror : grammar.setWrittenRule text = .error malformed := by
      rw [Grammar.setWrittenRule, hparse]
      rfl
    exact ⟨herror, by rw [Grammar.edit, herror]⟩

open Turtle in
/-- The standard convention with one symbol switched off and one that is given two operations. -/
def retouched : Convention Float32 :=
  Convention.standard.edited [.assign 'é' .push, .assign 'F' .ignore, .assign 'é' (.yaw 2)]

open Turtle in
/-- The same convention by another history, which leaves the customary operations of the symbols that
it does not name, two changes in either order, and a text that is no rule. -/
theorem symbol_tables_are_canonical_retouched :
    (retouched == Convention.empty.edited [.assign 'é' (.yaw 2), .standard, .assign 'F' .ignore]) =
      true ∧
    retouched.op '[' = .push ∧ retouched.op '|' = .turn .up 180 ∧ retouched.op 'F' = .ignore ∧
    (retouched.set 'F' .move).set '+' (.yaw (-1)) = (retouched.set '+' (.yaw (-1))).set 'F' .move ∧
    ∀ grammar : Grammar, grammar.edit (.written "A = FA".toList) = grammar := by
  obtain ⟨hhistories, -, hequal, hcommute, -, hmalformed⟩ := symbol_tables_are_canonical
  have hsame : retouched =
      Convention.empty.edited [.assign 'é' (.yaw 2), .standard, .assign 'F' .ignore] := rfl
  have hlisted : ∀ entry ∈ retouched.ops.entries,
      ∀ number ∈ entry.2.numbers, number.isNaN = false := by decide
  have hop := (hhistories Convention.empty
    [.assign 'é' (.yaw 2), .standard, .assign 'F' .ignore]).1
  rw [← hsame] at hop
  refine ⟨?_, hop '[', hop '|', hop 'F', hcommute _ 'F' '+' (by decide) _ _,
    fun grammar ↦ (hmalformed grammar _ _ rfl).2⟩
  apply ((hequal _ _).2 fun symbol ↦ by rw [← hsame]).2
  intro symbol
  by_cases hop : retouched.op symbol = .ignore
  · simp [hop, Op.numbers]
  · exact hlisted _ (((hhistories _ _).2.2 _ _).2 ⟨rfl, hop⟩)

end PlantGrowth
