import PlantGrowth.Turtle.Module

/-!
# Modules as symbols

The operation map of a symbol table is filled symbol by symbol, each at the number of its name,
wherever that lies. In the end every number has the operation of the one symbol that it names, and
none if it names no single symbol. So modules without parameters are interpreted like the word of
the symbols that they name.
-/

namespace PlantGrowth.Turtle

/-! ## Numbers and names -/

/-- A name is found under a number exactly when the number names it. -/
theorem SymbolTable.resolve?_eq_some_iff {table : SymbolTable} {name : Word} {number : Nat} :
    table.resolve? name = some number ↔ table.name? number = some name := by
  rw [resolve?, name?, List.idxOf?_eq_some_iff, List.getElem?_eq_some_iff]
  constructor
  · intro hfound
    obtain ⟨hnumber, hname, -⟩ := hfound
    exact ⟨hnumber, hname⟩
  · intro hnamed
    obtain ⟨hnumber, hname⟩ := hnamed
    refine ⟨hnumber, hname, ?_⟩
    intro earlier hearlier hsame
    have heq : earlier = number := (List.getElem_inj table.distinct).1 (hsame.trans hname.symm)
    omega

namespace Convention

variable {α : Type}

/-! ## The operation map -/

/-- The operation that a map has for a number. -/
def lookup (map : List (Op α)) (number : Nat) : Op α := map[number]?.getD .ignore

theorem lookup_assign (map : List (Op α)) (index number : Nat) (op : Op α) :
    lookup (assign map index op) number = if number = index then op else lookup map number := by
  unfold lookup assign
  rw [List.getElem?_set]
  by_cases hnumber : number = index
  · subst hnumber
    rw [if_pos rfl, if_pos rfl, if_pos]
    · rfl
    · rw [List.length_append, List.length_replicate]
      omega
  · rw [if_neg (Ne.symm hnumber), if_neg hnumber]
    rcases Nat.lt_or_ge number map.length with hinside | houtside
    · rw [List.getElem?_append_left hinside]
    · rw [List.getElem?_append_right houtside, List.getElem?_replicate,
        List.getElem?_eq_none houtside]
      split <;> rfl

/-- Fills a map with the entries whose symbols have numbers. -/
def fill (number? : Word → Option Nat) (map : List (Op α)) (entries : List (Char × Op α)) :
    List (Op α) :=
  entries.foldl
    (fun map entry ↦ (number? [entry.1]).elim map fun index ↦ assign map index entry.2) map

theorem fill_cons (number? : Word → Option Nat) (map : List (Op α)) (entry : Char × Op α)
    (rest : List (Char × Op α)) :
    fill number? map (entry :: rest) =
      fill number? ((number? [entry.1]).elim map fun index ↦ assign map index entry.2) rest :=
  rfl

section Filling

variable {number? : Word → Option Nat} {entries : List (Char × Op α)} {number : Nat}

/-- A number that an entry does not have keeps what it had. -/
theorem lookup_step_of_ne {entry : Char × Op α} (map : List (Op α))
    (hother : number? [entry.1] ≠ some number) :
    lookup ((number? [entry.1]).elim map fun index ↦ assign map index entry.2) number =
      lookup map number := by
  cases hnumber : number? [entry.1] with
  | none => rfl
  | some index =>
    have hindex : number ≠ index := by
      intro heq
      subst heq
      exact hother hnumber
    rw [Option.elim_some, lookup_assign, if_neg hindex]

theorem lookup_fill_of_ne (map : List (Op α))
    (hother : ∀ entry ∈ entries, number? [entry.1] ≠ some number) :
    lookup (fill number? map entries) number = lookup map number := by
  induction entries generalizing map with
  | nil => rfl
  | cons entry rest ih =>
    rw [fill_cons, ih _ fun later hlater ↦ hother later (List.mem_cons_of_mem _ hlater),
      lookup_step_of_ne map (hother entry List.mem_cons_self)]

/-- No later entry overwrites what an entry has set, for no other has the same number. -/
theorem lookup_fill_of_mem {symbol : Char} {op : Op α} (map : List (Op α))
    (hordered : Ascending entries) (hentry : (symbol, op) ∈ entries)
    (hnumber : number? [symbol] = some number)
    (honly : ∀ other, number? [other] = some number → other = symbol) :
    lookup (fill number? map entries) number = op := by
  induction entries generalizing map with
  | nil => simp at hentry
  | cons entry rest ih =>
    obtain ⟨hfirst, hrest⟩ := List.pairwise_cons.1 hordered
    rw [fill_cons]
    rcases List.mem_cons.1 hentry with rfl | hlater
    · have hothers : ∀ later ∈ rest, number? [later.1] ≠ some number := by
        intro later hmem hsame
        exact Key.ne_of_before (hfirst later hmem) (honly later.1 hsame).symm
      rw [lookup_fill_of_ne _ hothers, hnumber, Option.elim_some, lookup_assign, if_pos rfl]
    · exact ih _ hrest hlater

end Filling

/-- The operation that a name stands for: that of its symbol, if it is a single one. -/
def opOfName (convention : Convention α) : Option Word → Op α
  | some [symbol] => convention.op symbol
  | _ => .ignore

theorem lookup_opMap_of_name (convention : Convention α) {table : SymbolTable} {number : Nat}
    {symbol : Char} (hname : table.name? number = some [symbol]) :
    lookup (convention.opMap table) number = convention.op symbol := by
  change lookup (fill table.resolve? [] convention.ops.entries) number = _
  have honly : ∀ other, table.resolve? [other] = some number → other = symbol := by
    intro other hother
    simpa using (SymbolTable.resolve?_eq_some_iff.1 hother).symm.trans hname
  cases hop : convention.ops.get? symbol with
  | some op =>
    have hentry : (symbol, op) ∈ convention.ops.entries := Table.get?_eq_some_iff.1 hop
    rw [lookup_fill_of_mem [] convention.ops.ascending hentry
      (SymbolTable.resolve?_eq_some_iff.2 hname) honly, Convention.op, hop]
    rfl
  | none =>
    have hother : ∀ entry ∈ convention.ops.entries, table.resolve? [entry.1] ≠ some number := by
      intro entry hentry hsame
      have hget : convention.ops.get? symbol = some entry.2 :=
        Table.get?_eq_some_iff.2 (honly entry.1 hsame ▸ hentry)
      rw [hop] at hget
      cases hget
    rw [lookup_fill_of_ne [] hother, Convention.op, hop]
    rfl

/-- The operation map agrees with the convention on every number. -/
theorem lookup_opMap (convention : Convention α) (table : SymbolTable) (number : Nat) :
    lookup (convention.opMap table) number = convention.opOfName (table.name? number) := by
  unfold opOfName
  split
  · rename_i symbol hname
    exact lookup_opMap_of_name convention hname
  · rename_i hname
    apply lookup_fill_of_ne []
    intro entry _ hsame
    exact hname entry.1 (SymbolTable.resolve?_eq_some_iff.1 hsame)

end Convention

/-! ## Interpreting modules -/

namespace Interpreter

open Scene

theorem interpretModules_eq_placements (interpreter : Interpreter Float32) (modules : List Module)
    (table : SymbolTable) (root : State Float32) :
    interpreter.interpretModules modules table root =
      Walk.placements interpreter.settings root (modules.map fun module ↦
        ⟨interpreter.convention.opOfName (table.name? module.symbol),
          module.parameters.head?.map Number.narrow⟩) := by
  have hinstruction : Module.instruction (interpreter.convention.opMap table) = fun module ↦
      ⟨interpreter.convention.opOfName (table.name? module.symbol),
        module.parameters.head?.map Number.narrow⟩ := by
    funext module
    rw [Module.instruction, ← Convention.lookup_opMap, Convention.lookup]
  rw [interpretModules, hinstruction]

/-- Modules without parameters that name the symbols of a word are its instructions. -/
theorem instructions_of_names (interpreter : Interpreter Float32) {modules : List Module}
    {table : SymbolTable} {word : Word} (hplain : ∀ module ∈ modules, module.parameters = [])
    (hnames : (modules.map fun module ↦ table.name? module.symbol) =
      word.map fun symbol ↦ some [symbol]) :
    (modules.map fun module ↦
        (⟨interpreter.convention.opOfName (table.name? module.symbol),
          module.parameters.head?.map Number.narrow⟩ : Instruction Float32)) =
      interpreter.instructions word := by
  calc
    _ = modules.map (fun module ↦
        (⟨interpreter.convention.opOfName (table.name? module.symbol), none⟩ :
          Instruction Float32)) := by
      apply List.map_congr_left
      intro module hmodule
      rw [hplain module hmodule]
      rfl
    _ = (modules.map fun module ↦ table.name? module.symbol).map
        (fun name ↦ ⟨interpreter.convention.opOfName name, none⟩) := by
      rw [List.map_map]
      rfl
    _ = (word.map fun symbol ↦ some [symbol]).map
        (fun name ↦ ⟨interpreter.convention.opOfName name, none⟩) := by rw [hnames]
    _ = interpreter.instructions word := by
      rw [List.map_map]
      rfl

/-- Modules are walked with the operations of the symbols that their numbers name, and all other
numbers are passed over. In particular modules without parameters that name single symbols are
interpreted like the word of these symbols, with the same faults at the same positions. -/
theorem interpretModules_follows_names (interpreter : Interpreter Float32) (table : SymbolTable)
    (root : State Float32) :
    (∀ modules : List Module, interpreter.interpretModules modules table root =
      Walk.placements interpreter.settings root (modules.map fun module ↦
        ⟨interpreter.convention.opOfName (table.name? module.symbol),
          module.parameters.head?.map Number.narrow⟩)) ∧
    (∀ number, (interpreter.convention.opMap table).length ≤ number →
      interpreter.convention.opOfName (table.name? number) = .ignore) ∧
    ∀ (modules : List Module) (word : Word),
      (∀ module ∈ modules, module.parameters = []) →
      (modules.map fun module ↦ table.name? module.symbol) =
        (word.map fun symbol ↦ some [symbol]) →
      interpreter.interpretModules modules table root = interpreter.interpret word root := by
  refine ⟨?_, ?_, ?_⟩
  · intro modules
    exact interpreter.interpretModules_eq_placements modules table root
  · intro number hbeyond
    rw [← Convention.lookup_opMap, Convention.lookup, List.getElem?_eq_none hbeyond]
    rfl
  · intro modules word hplain hnames
    rw [interpretModules_eq_placements, interpreter.instructions_of_names hplain hnames, interpret]

/-- Names of one symbol, and one of two; a name that comes twice keeps its number. -/
def branchNames : SymbolTable :=
  SymbolTable.ofNames [['A'], ['F', 'A'], ['F'], ['+'], ['F'], ['['], [']']]

/-- A branch in numbers of single symbols, and a drawing before an unmatched closing with the name of
two symbols and an unknown number between them. -/
theorem interpretModules_follows_names_branch :
    interpretModules ⟨Settings.default, Convention.standard⟩
        ([2, 4, 3, 2, 0, 5, 2].map fun number ↦ ⟨number, []⟩) branchNames Settings.default.root =
      interpret ⟨Settings.default, Convention.standard⟩ "F[+FA]F".toList Settings.default.root ∧
    (Convention.standard : Convention Float32).opOfName (branchNames.name? 9) = .ignore ∧
    ∃ placed,
      interpretModules ⟨Settings.default, Convention.standard⟩
          [⟨2, [3]⟩, ⟨1, []⟩, ⟨9, [-1]⟩, ⟨5, []⟩] branchNames Settings.default.root =
        .error ⟨.unmatchedPop, 3, placed⟩ := by
  obtain ⟨hnames, hbeyond, hplain⟩ := interpretModules_follows_names
    ⟨Settings.default, Convention.standard⟩ branchNames Settings.default.root
  refine ⟨?_, ?_, ?_⟩
  · apply hplain
    · simp
    · rfl
  · apply hbeyond
    decide
  · rw [hnames]
    exact ⟨_, rfl⟩

end Interpreter

end PlantGrowth.Turtle
