import PlantGrowth.Number
import PlantGrowth.Turtle.Interpreter

/-!
# Parametric modules

A module is a symbol, given by its number in a symbol table, with parameters. The first parameter
overrides the length, angle or value of the operation. A symbol table numbers names in the order in
which they were first interned; only names of one symbol can have an operation.
-/

namespace PlantGrowth.Turtle

open Scene

structure SymbolTable where
  names : List Word
  distinct : names.Nodup

namespace SymbolTable

def empty : SymbolTable := ⟨[], List.nodup_nil⟩

/-- The number of an interned name. -/
def resolve? (table : SymbolTable) (name : Word) : Option Nat := table.names.idxOf? name

def name? (table : SymbolTable) (number : Nat) : Option Word := table.names[number]?

/-- Gives a new name the next number; a known name keeps its own. -/
def intern (table : SymbolTable) (name : Word) : SymbolTable :=
  if known : name ∈ table.names then table
  else ⟨table.names ++ [name], by
    simp only [List.nodup_append, List.nodup_cons, List.not_mem_nil, not_false_eq_true,
      List.nodup_nil, and_self, List.mem_cons, or_false, ne_eq, true_and]
    refine ⟨table.distinct, ?_⟩
    rintro other present _ rfl rfl
    exact known present⟩

def ofNames (names : List Word) : SymbolTable := names.foldl intern empty

end SymbolTable

structure Module where
  symbol : Nat
  parameters : List Float
  deriving Repr

namespace Convention

variable {α : Type}

/-- Writes an operation at an index, ignoring the places that this adds before it. -/
def assign (map : List (Op α)) (index : Nat) (op : Op α) : List (Op α) :=
  (map ++ List.replicate (index + 1 - map.length) Op.ignore).set index op

/-- The operations by symbol number, as far as the last symbol that has one. -/
def opMap (convention : Convention α) (table : SymbolTable) : List (Op α) :=
  convention.ops.entries.foldl
    (fun map entry => (table.resolve? [entry.1]).elim map fun index => assign map index entry.2) []

end Convention

namespace Module

/-- A symbol outside the operation map is ignored. -/
def instruction (map : List (Op Float32)) (module : Module) : Instruction Float32 :=
  ⟨map[module.symbol]?.getD .ignore, module.parameters.head?.map Number.narrow⟩

end Module

def Interpreter.interpretModules (interpreter : Interpreter Float32) (modules : List Module)
    (table : SymbolTable) (root : State Float32) :
    Except (Interruption Float32) (List (Placement Float32)) :=
  Walk.placements interpreter.settings root
    (modules.map (Module.instruction (interpreter.convention.opMap table)))

end PlantGrowth.Turtle
