import PlantGrowth.Turtle.Walk
import PlantGrowth.Word

/-!
# Conventions and interpreters

A convention says what each symbol makes the turtle do. Symbols that do nothing are not listed, so
two conventions that agree on every symbol are the same table.

An interpreter reads a word symbol by symbol, looks up each operation in its convention and walks.
Positions in its reports count symbols.
-/

namespace PlantGrowth.Turtle

open Scene

/-! ## Conventions -/

structure Convention (α : Type) where
  ops : Table Char (Op α)
  effective : ∀ entry ∈ ops.entries, entry.2.isIgnore = false

namespace Convention

variable {α : Type}

/-- Every symbol is ignored. -/
def empty : Convention α := ⟨Table.empty, by simp [Table.empty]⟩

def op (convention : Convention α) (symbol : Char) : Op α :=
  (convention.ops.get? symbol).getD .ignore

/-- Gives a symbol an operation; ignoring the symbol removes its entry. -/
def set (convention : Convention α) (symbol : Char) (op : Op α) : Convention α :=
  if ignored : op.isIgnore then
    ⟨convention.ops.erase symbol, fun entry present =>
      convention.effective entry (Table.mem_erase present)⟩
  else
    ⟨convention.ops.insert symbol op, fun entry present => by
      rcases Table.mem_insert present with placed | kept
      · simpa [placed] using ignored
      · exact convention.effective entry kept⟩

def setAll (convention : Convention α) (assignments : List (Char × Op α)) : Convention α :=
  assignments.foldl (fun current assignment => current.set assignment.1 assignment.2) convention

section Standard

variable [Neg α] [OfNat α 1] [OfNat α 180]

/-- The customary symbols of bracketed plants. -/
def standardAssignments : List (Char × Op α) :=
  [('F', .draw), ('f', .move), ('A', .ornament),
   ('+', .yaw 1), ('-', .yaw (-1)), ('&', .pitch 1), ('^', .pitch (-1)),
   ('\\', .roll 1), ('/', .roll (-1)), ('|', .turn .up 180),
   ('!', .shrink), ('[', .push), (']', .pop)]

/-- Gives every customary symbol its operation, whatever it meant before. -/
def setStandard (convention : Convention α) : Convention α :=
  convention.setAll standardAssignments

def standard : Convention α := empty.setStandard

end Standard

instance [BEq α] : BEq (Convention α) where
  beq first second := first.ops == second.ops

end Convention

/-! ## Interpreters -/

structure Interpreter (α : Type) where
  settings : Settings α
  convention : Convention α

namespace Interpreter

variable {α : Type}

def setOp (interpreter : Interpreter α) (symbol : Char) (op : Op α) : Interpreter α :=
  { interpreter with convention := interpreter.convention.set symbol op }

def root [OfNat α 0] [OfNat α 1] (interpreter : Interpreter α) : State α :=
  interpreter.settings.root

/-- A symbol of a word brings no argument. -/
def instructions (interpreter : Interpreter α) (word : Word) : List (Instruction α) :=
  word.map fun symbol => ⟨interpreter.convention.op symbol, none⟩

def interpret [Add α] [Sub α] [Mul α] [Div α] [Neg α] [OfNat α 0] [OfNat α 1] [OfNat α 2]
    [Elementary α] (interpreter : Interpreter α) (word : Word) (root : State α) :
    Except (Interruption α) (List (Placement α)) :=
  Walk.placements interpreter.settings root (interpreter.instructions word)

end Interpreter

end PlantGrowth.Turtle
