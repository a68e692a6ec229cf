import Mathlib.Data.Set.Function
import Mathlib.Order.Bounds.Basic
import Mathlib.Order.MinMax
import PlantGrowth.Proofs.Turtle.Convention
import PlantGrowth.Proofs.Turtle.Module

/-!
# Operation maps

An operation map is filled in the order of the symbols, at numbers that need not follow that order,
and it grows when a number lies beyond its end. It always reaches as far as the largest number filled
in so far. In the end it holds the operation of each symbol that has both an operation and a number,
all other numbers are ignored, and no shorter map would do. All this needs of the numbering is that
no two names have the same number.
-/

namespace PlantGrowth.Turtle

/-- Different names of a symbol table have different numbers. -/
theorem SymbolTable.injOn_resolve? (table : SymbolTable) :
    Set.InjOn table.resolve? {name | (table.resolve? name).isSome} := by
  intro first hfirst second _ hsame
  obtain ⟨number, hnumber⟩ := Option.isSome_iff_exists.1 hfirst
  have hname := resolve?_eq_some_iff.1 hnumber
  rw [hsame, resolve?_eq_some_iff] at hnumber
  exact Option.some.inj (hname.symm.trans hnumber)

namespace Convention

variable {α : Type} {number? : Word → Option ℕ}

/-! ## Filling a map -/

theorem length_assign (map : List (Op α)) (index : ℕ) (op : Op α) :
    (assign map index op).length = max map.length (index + 1) := by
  rw [assign, List.length_set, List.length_append, List.length_replicate]
  omega

/-- A map reaches as far as it did before and as far as the numbers that are filled in. -/
theorem lt_length_fill_iff (map : List (Op α)) {entries : List (Char × Op α)} {position : ℕ} :
    position < (fill number? map entries).length ↔
      position < map.length ∨
        ∃ entry ∈ entries, ∃ number, number? [entry.1] = some number ∧ position ≤ number := by
  -- Positions are compared one by one, so that no maximum has to be taken over the entries.
  induction entries generalizing map with
  | nil => simp [fill]
  | cons entry rest ih =>
    rw [fill_cons, ih, List.exists_mem_cons_iff, ← or_assoc]
    apply or_congr_left
    cases hnumber : number? [entry.1] with
    | none => simp
    | some index =>
      rw [Option.elim_some, length_assign, lt_max_iff, Nat.lt_succ_iff]
      simp

/-! ## The map after some of the symbols -/

/-- The operation map when the given number of symbols with operations has been gone through. -/
def opMapAfter (convention : Convention α) (number? : Word → Option ℕ) (count : ℕ) : List (Op α) :=
  fill number? [] (convention.ops.entries.take count)

/-- The numbers of the symbols that have an operation. -/
def activeNumbers (convention : Convention α) (number? : Word → Option ℕ) : Set ℕ :=
  {number | ∃ symbol, number? [symbol] = some number ∧ convention.op symbol ≠ .ignore}

variable {convention : Convention α} {count : ℕ}

theorem opMapAfter_size (convention : Convention α) (number? : Word → Option ℕ) :
    convention.opMapAfter number? convention.ops.size = fill number? [] convention.ops.entries := by
  rw [opMapAfter, Table.size, List.take_length]

theorem number_mem_activeNumbers {entry : Char × Op α} {number : ℕ}
    (hentry : entry ∈ convention.ops.entries) (hnumber : number? [entry.1] = some number) :
    number ∈ convention.activeNumbers number? := by
  obtain ⟨hop, heffective⟩ := mem_entries_iff.1 hentry
  exact ⟨entry.1, hnumber, hop ▸ heffective⟩

/-- What has been filled in is there, however far the map was filled and in whatever order. -/
theorem getElem?_opMapAfter
    (hinjective : Set.InjOn number? {name | (number? name).isSome}) {symbol : Char} {op : Op α}
    {number : ℕ} (hentry : (symbol, op) ∈ convention.ops.entries.take count)
    (hnumber : number? [symbol] = some number) :
    (convention.opMapAfter number? count)[number]? = some op := by
  have honly : ∀ other, number? [other] = some number → other = symbol := by
    intro other hother
    have hname : [other] = [symbol] := by
      apply hinjective _ _ (hother.trans hnumber.symm)
      · simp [hother]
      · simp [hnumber]
    simpa using hname
  have hordered : Ascending (convention.ops.entries.take count) :=
    convention.ops.ascending.sublist (List.take_sublist _ _)
  have hinside : number < (convention.opMapAfter number? count).length :=
    (lt_length_fill_iff []).2 (Or.inr ⟨_, hentry, number, hnumber, Nat.le_refl number⟩)
  have hop := lookup_fill_of_mem [] hordered hentry hnumber honly
  rw [← opMapAfter, lookup, List.getElem?_eq_getElem hinside, Option.getD_some] at hop
  rw [List.getElem?_eq_getElem hinside, hop]

/-- The places between the numbers that were filled in are ignored. -/
theorem eq_ignore_of_getElem? {number : ℕ} {op : Op α}
    (hop : (convention.opMapAfter number? count)[number]? = some op)
    (hinactive : number ∉ convention.activeNumbers number?) : op = .ignore := by
  have hother : ∀ entry ∈ convention.ops.entries.take count, number? [entry.1] ≠ some number := by
    intro entry hentry hnumber
    exact hinactive (number_mem_activeNumbers (List.mem_of_mem_take hentry) hnumber)
  have hlookup := lookup_fill_of_ne [] hother
  rw [← opMapAfter, lookup, hop] at hlookup
  exact hlookup

theorem length_opMapAfter_le (convention : Convention α) (number? : Word → Option ℕ)
    {earlier later : ℕ} (hle : earlier ≤ later) :
    (convention.opMapAfter number? earlier).length ≤
      (convention.opMapAfter number? later).length := by
  apply le_of_forall_lt
  intro position hposition
  rw [opMapAfter, lt_length_fill_iff] at hposition ⊢
  obtain hnothing | ⟨entry, hentry, hnumber⟩ := hposition
  · exact Or.inl hnothing
  · exact Or.inr ⟨entry, List.take_subset_take_left _ hle hentry, hnumber⟩

/-! ## The whole map -/

theorem lt_length_opMapAfter_iff {position : ℕ} :
    position < (convention.opMapAfter number? convention.ops.size).length ↔
      ∃ number ∈ convention.activeNumbers number?, position ≤ number := by
  rw [opMapAfter_size, lt_length_fill_iff]
  constructor
  · rintro (hnothing | ⟨entry, hentry, number, hnumber, hle⟩)
    · simp at hnothing
    · exact ⟨number, number_mem_activeNumbers hentry hnumber, hle⟩
  · rintro ⟨number, ⟨symbol, hnumber, hop⟩, hle⟩
    exact Or.inr ⟨(symbol, convention.op symbol), mem_entries_iff.2 ⟨rfl, hop⟩, number, hnumber, hle⟩

/-- A map that is not empty ends with the largest number of a symbol that has an operation. -/
theorem length_opMapAfter_size (convention : Convention α) (number? : Word → Option ℕ) :
    (convention.activeNumbers number? = ∅ ∧
        (convention.opMapAfter number? convention.ops.size).length = 0) ∨
      ∃ largest, IsGreatest (convention.activeNumbers number?) largest ∧
        (convention.opMapAfter number? convention.ops.size).length = largest + 1 := by
  cases hlength : (convention.opMapAfter number? convention.ops.size).length with
  | zero =>
    refine Or.inl ⟨Set.eq_empty_of_forall_notMem fun number hactive ↦ ?_, rfl⟩
    have hinside := lt_length_opMapAfter_iff.2 ⟨number, hactive, Nat.le_refl number⟩
    omega
  | succ largest =>
    have hbound : largest ∈ upperBounds (convention.activeNumbers number?) := by
      intro number hactive
      have hinside := lt_length_opMapAfter_iff.2 ⟨number, hactive, Nat.le_refl number⟩
      omega
    have hlast : largest < (convention.opMapAfter number? convention.ops.size).length := by omega
    obtain ⟨number, hactive, hle⟩ := lt_length_opMapAfter_iff.1 hlast
    rw [← Nat.le_antisymm hle (hbound hactive)] at hactive
    exact Or.inr ⟨largest, ⟨hactive, hbound⟩, rfl⟩

/-- The operation map of a symbol table is the last of the maps that are filled one symbol after
another. For every numbering of names that gives no number twice, it ends with the largest number of
a single symbol that has an operation, it has that operation at the number of each such symbol and
ignores all other numbers. A map is never shortened, and what was filled in once stays there. -/
theorem operation_maps_are_exact (convention : Convention α) :
    (∀ table : SymbolTable,
      Set.InjOn table.resolve? {name | (table.resolve? name).isSome} ∧
      convention.opMap table = convention.opMapAfter table.resolve? convention.ops.size) ∧
    ∀ number? : Word → Option ℕ, Set.InjOn number? {name | (number? name).isSome} →
      ((convention.activeNumbers number? = ∅ ∧
          (convention.opMapAfter number? convention.ops.size).length = 0) ∨
        ∃ largest, IsGreatest (convention.activeNumbers number?) largest ∧
          (convention.opMapAfter number? convention.ops.size).length = largest + 1) ∧
      (∀ symbol number, number? [symbol] = some number → convention.op symbol ≠ .ignore →
        (convention.opMapAfter number? convention.ops.size)[number]? = some (convention.op symbol)) ∧
      (∀ number op, number ∉ convention.activeNumbers number? →
        (convention.opMapAfter number? convention.ops.size)[number]? = some op → op = .ignore) ∧
      (∀ earlier later, earlier ≤ later →
        (convention.opMapAfter number? earlier).length ≤
          (convention.opMapAfter number? later).length) ∧
      ∀ place symbol op number, convention.ops.entries[place]? = some (symbol, op) →
        number? [symbol] = some number →
        ∀ count > place, (convention.opMapAfter number? count)[number]? = some op := by
  constructor
  · intro table
    exact ⟨table.injOn_resolve?, (opMapAfter_size convention table.resolve?).symm⟩
  · intro number? hinjective
    refine ⟨length_opMapAfter_size convention number?, ?_, ?_,
      fun _ _ ↦ length_opMapAfter_le convention number?, ?_⟩
    · intro symbol number hnumber hop
      apply getElem?_opMapAfter hinjective _ hnumber
      rw [Table.size, List.take_length]
      exact mem_entries_iff.2 ⟨rfl, hop⟩
    · intro number op hinactive hop
      exact eq_ignore_of_getElem? hop hinactive
    · intro place symbol op number hplace hnumber count hcount
      apply getElem?_opMapAfter hinjective _ hnumber
      exact List.mem_of_getElem? ((List.getElem?_take_of_lt hcount).trans hplace)

/-- The symbols that have an operation, neither in the order of their numbers nor all numbered. -/
def scattered : Convention Float32 :=
  ((Convention.empty.set 'z' .pop).set 'F' .draw).set 'A' .push

/-- Names of no symbol, of one and of two. -/
def scatteredNames : SymbolTable :=
  SymbolTable.ofNames [['z'], [], ['A', 'z'], ['x'], ['A'], ['z'], ['y']]

theorem operation_maps_are_exact_scattered :
    (scattered.opMap scatteredNames).length = 5 ∧
    (scattered.opMap scatteredNames)[0]? = some .pop ∧
    (∀ op, (scattered.opMap scatteredNames)[2]? = some op → op = .ignore) ∧
    (scattered.opMapAfter scatteredNames.resolve? 1)[4]? = some .push ∧
    (scattered.opMap scatteredNames)[4]? = some .push := by
  obtain ⟨htables, hexact⟩ := operation_maps_are_exact scattered
  obtain ⟨hinjective, hmap⟩ := htables scatteredNames
  obtain ⟨hlength, hrecorded, hothers, -, hkept⟩ := hexact scatteredNames.resolve? hinjective
  rw [hmap]
  have hgreatest : IsGreatest (scattered.activeNumbers scatteredNames.resolve?) 4 := by
    refine ⟨⟨'A', rfl, by decide⟩, ?_⟩
    rintro number ⟨symbol, hnumber, hop⟩
    have hname := SymbolTable.resolve?_eq_some_iff.1 hnumber
    by_contra hbeyond
    obtain rfl | houtside : number = 5 ∨ 6 ≤ number := by omega
    · obtain rfl : 'y' = symbol := List.head_eq_of_cons_eq (Option.some.inj hname)
      exact hop rfl
    · rw [SymbolTable.name?, List.getElem?_eq_none houtside] at hname
      cases hname
  refine ⟨?_, hrecorded 'z' 0 rfl (by decide), ?_, ?_, hrecorded 'A' 4 rfl (by decide)⟩
  · obtain ⟨hempty, -⟩ | ⟨largest, hlargest, hlength⟩ := hlength
    · exact absurd (hempty ▸ hgreatest.1) (Set.notMem_empty 4)
    · rw [hlength, hlargest.unique hgreatest]
  · intro op
    apply hothers
    rintro ⟨symbol, hnumber, -⟩
    have hname : some ['A', 'z'] = some [symbol] := SymbolTable.resolve?_eq_some_iff.1 hnumber
    simp at hname
  · exact hkept 0 'A' .push 4 rfl rfl 1 (by decide)

end Convention

end PlantGrowth.Turtle
