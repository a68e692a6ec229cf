import PlantGrowth.Toml.Value

/-!
# Documents and the tables that they describe

A document is laid out as assignments, then sections of assignments under headings. Keys may be
dotted paths.

A document describes a tree of tables. A table comes about in one of three ways: under a heading of
its own, on the way to the heading of a table inside it, or by a dotted key. Headings may pass
through any table, but may open only one that is new or was merely passed through; dotted keys may
extend only tables that dotted keys made. No key is set twice.

In the other direction the entries that fit on a line come first in a table, followed by a section
for every table inside it. A heading is left out when a table holds nothing but tables.
-/

namespace PlantGrowth.Toml

/-! ## Layout -/

/-- A dotted path, split before its last part. -/
structure KeyPath where
  parents : List Word
  key : Word
  deriving DecidableEq, Repr

def KeyPath.parts (path : KeyPath) : List Word := path.parents ++ [path.key]

structure Assignment where
  target : KeyPath
  value : Value

/-- A section describes a table or, in double brackets, the next element of an array of tables. -/
structure Section where
  isElement : Bool
  path : KeyPath
  assignments : List Assignment

structure Document where
  preamble : List Assignment
  sections : List Section

/-! ## Tables -/

inductive Origin
  | heading
  | passage
  | dotted
  deriving DecidableEq, Repr

/-- A value or a table under construction. -/
inductive Node
  | leaf (value : Value)
  | table (origin : Origin) (nodes : List (Word × Node))
  | elements (tables : List (List (Word × Node)))

abbrev Nodes := List (Word × Node)

namespace Nodes

/-- Replaces what a key holds, keeping its place. -/
def replace (nodes : Nodes) (key : Word) (node : Node) : Nodes :=
  nodes.map fun entry => if entry.1 == key then (key, node) else entry

/-- Changes the table at the end of a path, making the tables on the way that do not exist yet.
In an array of tables the path leads through the last element. -/
def within (fresh : Origin) (change : Origin → Nodes → Option Nodes) :
    List Word → Origin → Nodes → Option Nodes
  | [], origin, nodes => change origin nodes
  | key :: path, _, nodes =>
    match nodes.lookup key with
    | none => do
      let inner ← within fresh change path fresh []
      return nodes ++ [(key, .table fresh inner)]
    | some (.leaf _) => none
    | some (.table origin inner) =>
      if fresh == .dotted && origin == .heading then none
      else do
        let changed ← within fresh change path origin inner
        return nodes.replace key (.table origin changed)
    | some (.elements tables) => do
      let last ← tables.getLast?
      let changed ← within fresh change path .heading last
      return nodes.replace key (.elements (tables.dropLast ++ [changed]))

def assign (nodes : Nodes) (assignment : Assignment) : Option Nodes :=
  let target := assignment.target
  within .dotted (fun origin found =>
    if !target.parents.isEmpty && origin != .dotted then none
    else if (found.lookup target.key).isSome then none
    else some (found ++ [(target.key, .leaf assignment.value)])) target.parents .heading nodes

def assignAll (nodes : Nodes) (assignments : List Assignment) : Option Nodes :=
  assignments.foldlM assign nodes

/-- Adds a section at the place that its heading names. -/
def enter (nodes : Nodes) (part : Section) : Option Nodes :=
  let key := part.path.key
  within .passage (fun _ found =>
    match part.isElement, found.lookup key with
    | true, none => do
      let element ← assignAll [] part.assignments
      return found ++ [(key, .elements [element])]
    | true, some (.elements tables) => do
      let element ← assignAll [] part.assignments
      return found.replace key (.elements (tables ++ [element]))
    | false, none => do
      let inner ← assignAll [] part.assignments
      return found ++ [(key, .table .heading inner)]
    | false, some (.table .passage inner) => do
      let extended ← assignAll inner part.assignments
      return found.replace key (.table .heading extended)
    | _, _ => none) part.path.parents .heading nodes

end Nodes

mutual

def Node.value : Node → Value
  | .leaf value => value
  | .table _ nodes => .table (entriesOf nodes)
  | .elements tables => .array (elementsOf tables)

def entriesOf : List (Word × Node) → Entries
  | [] => []
  | (key, node) :: rest => (key, node.value) :: entriesOf rest

def elementsOf : List (List (Word × Node)) → List Value
  | [] => []
  | nodes :: rest => .table (entriesOf nodes) :: elementsOf rest

end

/-- The table of a list of assignments, as in an inline table. -/
def inlineEntries? (assignments : List Assignment) : Option Entries :=
  (Nodes.assignAll [] assignments).map entriesOf

namespace Document

/-- What a document means, unless it sets a key twice or opens a table that it may not. -/
def entries? (document : Document) : Option Entries := do
  let preamble ← Nodes.assignAll [] document.preamble
  let nodes ← document.sections.foldlM Nodes.enter preamble
  return entriesOf nodes

/-- The entries of a table that fit on a line. -/
def plainAssignments (entries : Entries) : List Assignment :=
  (entries.filter fun entry => entry.2.isPlain).map fun entry => ⟨⟨[], entry.1⟩, entry.2⟩

mutual

/-- The sections of the tables among some entries. -/
def sectionsOf (parents : List Word) : List (Word × Value) → List Section
  | [] => []
  | (key, value) :: rest => valueSections ⟨parents, key⟩ value ++ sectionsOf parents rest

def valueSections (path : KeyPath) : Value → List Section
  | .table entries =>
    let own : Section := ⟨false, path, plainAssignments entries⟩
    let inner := sectionsOf path.parts entries
    if entries.isEmpty || !own.assignments.isEmpty then own :: inner else inner
  | .array elements =>
    if Value.isSectionArray (.array elements) then elementSections path elements else []
  | _ => []

def elementSections (path : KeyPath) : List Value → List Section
  | [] => []
  | .table entries :: rest =>
    ⟨true, path, plainAssignments entries⟩ :: sectionsOf path.parts entries ++
      elementSections path rest
  | _ :: rest => elementSections path rest

end

def ofEntries (entries : Entries) : Document :=
  ⟨plainAssignments entries, sectionsOf [] entries⟩

end Document

end PlantGrowth.Toml
