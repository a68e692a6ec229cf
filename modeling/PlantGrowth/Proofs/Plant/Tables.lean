import PlantGrowth.Proofs.Grammar.Histories
import PlantGrowth.Proofs.Plant.Adjustment
import PlantGrowth.Proofs.Word

/-!
# Tables of configurations

Configurations have their rules and operations under words, grammars and conventions under symbols.
Validation leaves only words of one symbol, so a grammar has all rules of its configuration, and has
them in the same order. A convention needs no validation: words that are no symbol do nothing to it.
-/

namespace PlantGrowth

open Turtle

namespace Config

/-! ## Words of one symbol -/

section Entries

variable {β : Type} {table : Table Word β}

theorem mem_symbolEntries {symbol : Char} {value : β} :
    (symbol, value) ∈ symbolEntries table ↔ ([symbol], value) ∈ table.entries := by
  simp [symbolEntries, Word.single?_eq_some_iff]

/-- Symbols are in the same order as the words that they are. -/
theorem ascending_symbolEntries (table : Table Word β) : Ascending (symbolEntries table) := by
  have hword (symbol other : Char) : Word.before [symbol] [other] = Symbol.before symbol other := by
    cases hsymbols : Symbol.before symbol other <;> simp [Word.before, hsymbols]
  rw [Ascending, symbolEntries, List.pairwise_filterMap]
  apply table.ascending.imp
  intro first second hbefore entry hentry other hother
  rw [Option.map_eq_some_iff] at hentry hother
  obtain ⟨symbol, hfirst, rfl⟩ := hentry
  obtain ⟨otherSymbol, hsecond, rfl⟩ := hother
  rw [Word.single?_eq_some_iff] at hfirst hsecond
  rw [hfirst, hsecond] at hbefore
  exact (hword symbol otherSymbol).symm.trans hbefore

/-- What a table has under its symbols. -/
def bySymbol (table : Table Word β) : Table Char β :=
  ⟨symbolEntries table, ascending_symbolEntries table⟩

theorem get?_bySymbol (table : Table Word β) (symbol : Char) :
    (bySymbol table).get? symbol = table.get? [symbol] := by
  ext value
  rw [Table.get?_eq_some_iff, Table.get?_eq_some_iff]
  exact mem_symbolEntries

theorem ofList_symbolEntries (table : Table Word β) :
    Table.ofList (symbolEntries table) = bySymbol table :=
  Table.ofList_eq_of_perm (List.Perm.refl _)

/-- If all words are symbols, none is lost. -/
theorem entries_bySymbol (hkeys : ∀ key ∈ table.keys, ∃ symbol, key = [symbol]) :
    (bySymbol table).entries.map (fun entry ↦ ([entry.1], entry.2)) = table.entries := by
  have hsingle : ∀ entry ∈ table.entries,
      ((entry.1.single?.map fun symbol ↦ (symbol, entry.2)).map fun entry ↦ ([entry.1], entry.2)) =
        some entry := by
    rintro ⟨key, value⟩ hentry
    obtain ⟨symbol, rfl⟩ := hkeys key (List.mem_map_of_mem hentry)
    rfl
  calc
    _ = table.entries.filterMap fun entry ↦
        (entry.1.single?.map fun symbol ↦ (symbol, entry.2)).map fun entry ↦ ([entry.1], entry.2) :=
      List.map_filterMap
    _ = table.entries.filterMap some := List.filterMap_congr hsingle
    _ = table.entries := List.filterMap_some

end Entries

/-! ## Rules and operations -/

variable {config : Config}

theorem Valid.seed_grammar (hvalid : config.Valid) : hvalid.grammar.seed = config.seed :=
  Grammar.seed_setRules _ _

theorem Valid.rules_grammar (hvalid : config.Valid) :
    hvalid.grammar.rules = bySymbol config.rules := by
  rw [Valid.grammar, Grammar.rules_setRules, ← ofList_symbolEntries]
  rfl

theorem Valid.rule?_grammar (hvalid : config.Valid) (symbol : Char) :
    hvalid.grammar.rule? symbol = config.rules.get? [symbol] := by
  rw [Grammar.rule?, hvalid.rules_grammar, get?_bySymbol]

theorem Valid.entries_rules_grammar (hvalid : config.Valid) :
    hvalid.grammar.rules.entries.map (fun rule ↦ ([rule.1], rule.2)) = config.rules.entries := by
  rw [hvalid.rules_grammar]
  apply entries_bySymbol
  intro key hkey
  exact hvalid.keys key (List.mem_append_left _ hkey)

theorem op_convention (config : Config) (symbol : Char) :
    config.convention.op symbol =
      (config.symbols.get? [symbol]).getD (Convention.standard.op symbol) := by
  rw [convention, Convention.op_setAll, ← Table.get?_ofList, ofList_symbolEntries, get?_bySymbol]

end Config

/-! ## From configurations to plants -/

open Plant in
/-- The grammar of a valid configuration has its seed and exactly its rules, one after another in the
order of their bytes, and so has a plant that is grown from it, which nothing but the cap can
prevent. What validation finds is all that the grammar and the plant report. In any configuration,
valid or not, an operation under a word of one symbol takes the place of the standard one, and
operations under other words do not count. -/
theorem config_tables_reach_the_plant :
    (∀ config : Config, config.validate = .ok () →
      (∃ grammar, config.grammar = .ok grammar ∧
        grammar.seed = config.seed ∧
        grammar.rules.entries.map (fun rule ↦ ([rule.1], rule.2)) = config.rules.entries ∧
        grammar.ruleCount = config.rules.size ∧
        (∀ symbol, grammar.rule? symbol = config.rules.get? [symbol]) ∧
        ∀ plant, grow config = .ok plant →
          plant.grammar = grammar ∧ plant.interpreter.convention = config.convention) ∧
      ∀ failure, grow config = .error failure → ∃ report, failure = .expansionLimit report) ∧
    (∀ (config : Config) (failure : Failure), config.validate = .error failure →
      config.grammar = .error failure ∧ grow config = .error failure) ∧
    ∀ config : Config,
      config.rules.keys.Pairwise (fun earlier later ↦ earlier.bytes < later.bytes) ∧
      (∀ symbol, config.convention.op symbol =
        (config.symbols.get? [symbol]).getD (Convention.standard.op symbol)) ∧
      ∀ other : Config,
        (∀ symbol, other.symbols.get? [symbol] = config.symbols.get? [symbol]) →
          other.convention = config.convention := by
  refine ⟨?_, ?_, ?_⟩
  · intro config hvalidate
    have hvalid := Config.validate_eq_ok_iff.1 hvalidate
    have hentries := hvalid.entries_rules_grammar
    have hcount : hvalid.grammar.ruleCount = config.rules.size := by
      rw [Grammar.ruleCount, Table.size, Table.size, ← hentries, List.length_map]
    refine ⟨⟨hvalid.grammar, Config.grammar_of_valid hvalid, hvalid.seed_grammar, hentries, hcount,
      hvalid.rule?_grammar, ?_⟩, fun failure ↦ eq_expansionLimit_of_grow_error hvalid⟩
    intro plant hgrow
    obtain ⟨-, hplant⟩ := of_grow hgrow hvalid
    rw [hplant]
    exact ⟨rfl, rfl⟩
  · intro config failure hinvalid
    exact ⟨Config.grammar_of_validate_error hinvalid, grow_of_validate_error hinvalid⟩
  · intro config
    refine ⟨?_, config.op_convention, ?_⟩
    · rw [Table.keys, List.pairwise_map]
      exact config.rules.ascending.imp Word.bytes_lt_iff.2
    · intro other hsame
      apply Convention.ext_op
      intro symbol
      rw [config.op_convention, other.op_convention, hsame]

/-- A shoot with blanks in a rule, and with a symbol switched off. -/
def Config.padded : Config :=
  { shoot with
    rules := Table.ofList [(['é'], " A ".toList), (['A'], "FéF".toList)]
    symbols := Table.ofList [(['F'], .ignore)] }

/-- Both rules as they are written, no plant without a seed, and a word that is no symbol. -/
theorem config_tables_reach_the_plant_padded :
    (∃ grammar, Config.padded.grammar = .ok grammar ∧ grammar.ruleCount = 2 ∧
      grammar.rule? 'é' = some " A ".toList) ∧
    Plant.grow { Config.padded with seed := [] } = .error .emptySeed ∧
    Config.padded.convention.op 'F' = .ignore ∧
    { Config.padded with symbols := Config.padded.symbols.insert ['F', 'F'] .draw }.convention =
      Config.padded.convention := by
  obtain ⟨hvalid, hinvalid, hany⟩ := config_tables_reach_the_plant
  obtain ⟨⟨grammar, hgrammar, -, -, hcount, hrules, -⟩, -⟩ := hvalid Config.padded rfl
  obtain ⟨-, hops, hother⟩ := hany Config.padded
  refine ⟨⟨grammar, hgrammar, hcount, (hrules 'é').trans rfl⟩, (hinvalid _ _ rfl).2,
    (hops 'F').trans rfl, hother _ ?_⟩
  intro symbol
  rw [Table.get?_insert, if_neg (by simp)]

end PlantGrowth
