import PlantGrowth.Toml.Document
import PlantGrowth.Toml.Quoted
import PlantGrowth.Toml.Scalar

/-!
# Reading documents

A reader takes a piece off the front of the text or fails. Repetition is bounded by the length of
the text, since every round takes at least one symbol, and the nesting of arrays and inline tables
by a fixed depth.
-/

namespace PlantGrowth.Toml

abbrev Reader (α : Type) := StateT Word Option α

namespace Reader

/-! ## Pieces of a line -/

def peek : Reader (Option Char) := fun input => some (input.head?, input)

/-- Takes the given text off the front if it is there. -/
def accept (text : Word) : Reader Bool := fun input =>
  match text.isPrefixOf? input with
  | some rest => some (true, rest)
  | none => some (false, input)

def expect (text : Word) : Reader Unit := fun input =>
  (text.isPrefixOf? input).map fun rest => ((), rest)

def takeWhile (test : Char → Bool) : Reader Word := fun input =>
  some (input.takeWhile test, input.dropWhile test)

def skipWhile (test : Char → Bool) : Reader Unit := fun input => some ((), input.dropWhile test)

/-- Runs a reader that repeats itself, with enough rounds for the rest of the text. -/
def bounded {α : Type} (reader : Nat → Reader α) : Reader α := fun input =>
  reader (input.length + 1) input

def spacing : Reader Unit := skipWhile Quoted.isSpacing

def comment : Reader Unit := do
  if ← accept ['#'] then skipWhile fun symbol => !Quoted.isControl symbol

def lineBreak : Reader Bool := do
  if ← accept ['\n'] then return true else accept ['\r', '\n']

/-- The rest of a line that has nothing more to say. -/
def lineEnd : Reader Unit := do
  spacing
  comment
  if (← peek).isSome then guard (← lineBreak)

/-- Spacing, comments and line breaks, as they may surround the elements of an array. -/
def blankLines : Nat → Reader Unit
  | 0 => failure
  | rounds + 1 => do
    spacing
    comment
    if ← lineBreak then blankLines rounds

/-! ## Keys -/

def keyPart : Reader Word := do
  match ← peek with
  | some '"' | some '\'' => fun input => Quoted.readOneLine? input
  | _ =>
    let part ← takeWhile Quoted.isBare
    guard !part.isEmpty
    return part

def keyParts : Nat → Reader KeyPath
  | 0 => failure
  | rounds + 1 => do
    spacing
    let part ← keyPart
    spacing
    if ← accept ['.'] then
      let path ← keyParts rounds
      return { path with parents := part :: path.parents }
    else return ⟨[], part⟩

/-- Arrays and inline tables nest less deeply than this, and paths have fewer parts. -/
def nestingLimit : Nat := 80

def keyPath : Reader KeyPath := do
  let path ← bounded keyParts
  guard (path.parts.length < nestingLimit)
  return path

/-! ## Values -/

/-- A scalar without quotes. A date is joined with a time that follows after one blank. -/
def unquoted : Reader Value := do
  let token ← takeWhile Scalar.isTokenSymbol
  if Scalar.isDate token then fun input =>
    match input with
    | ' ' :: digit :: rest =>
      if digit.isDigit then
        let time := (digit :: rest).takeWhile Scalar.isTokenSymbol
        (Scalar.read? (token ++ ' ' :: time)).map fun value =>
          (value, (digit :: rest).dropWhile Scalar.isTokenSymbol)
      else some (.datetime token, input)
    | _ => some (.datetime token, input)
  else fun input => (Scalar.read? token).map fun value => (value, input)

def scalar : Reader Value := do
  match ← peek with
  | some '"' | some '\'' => return .string (← fun input => Quoted.read? input)
  | _ => unquoted

/-- The elements up to the closing bracket; a comma may follow the last one. -/
def elements (element : Reader Value) : Nat → Reader (List Value)
  | 0 => failure
  | rounds + 1 => do
    bounded blankLines
    if ← accept [']'] then return []
    let first ← element
    bounded blankLines
    if ← accept [','] then return first :: (← elements element rounds)
    expect [']']
    return [first]

def assignment (value : Reader Value) : Reader Assignment := do
  let target ← keyPath
  expect ['=']
  spacing
  return ⟨target, ← value⟩

/-- The assignments up to the closing brace, at least one; no comma follows the last one. -/
def inlineAssignments (value : Reader Value) : Nat → Reader (List Assignment)
  | 0 => failure
  | rounds + 1 => do
    let first ← assignment value
    spacing
    if ← accept [','] then return first :: (← inlineAssignments value rounds)
    expect ['\x7d']
    return [first]

/-- The assignments of an inline table whose brace is open. -/
def inlineTable (value : Reader Value) : Reader Value := do
  spacing
  let assignments ← if ← accept ['\x7d'] then pure [] else bounded (inlineAssignments value)
  return .table (← fun input => (inlineEntries? assignments).map fun entries => (entries, input))

/-- A value with arrays and inline tables nested in it up to a depth. -/
def value : Nat → Reader Value
  | 0 => scalar
  | depth + 1 => do
    if ← accept ['['] then return .array (← bounded (elements (value depth)))
    else if ← accept ['\x7b'] then inlineTable (value depth)
    else scalar

/-! ## Lines -/

/-- The heading of a section whose first bracket is taken. -/
def heading : Reader Section := do
  let isElement ← accept ['[']
  let path ← keyPath
  expect (if isElement then [']', ']'] else [']'])
  return ⟨isElement, path, []⟩

/-- A line of a document: an assignment or a heading. -/
inductive Line
  | assignment (assignment : Assignment)
  | heading (part : Section)

def line : Reader Line := do
  if ← accept ['['] then return .heading (← heading)
  else return .assignment (← assignment (value (nestingLimit - 1)))

/-- Does the line hold nothing but spacing and a comment? -/
def isBlankLine : Option Char → Bool
  | some '#' | some '\n' | some '\r' => true
  | _ => false

def lines : Nat → Reader (List Line)
  | 0 => failure
  | rounds + 1 => do
    spacing
    let next ← peek
    if next.isNone then return []
    if isBlankLine next then
      lineEnd
      lines rounds
    else
      let first ← line
      lineEnd
      return first :: (← lines rounds)

end Reader

namespace Document

/-- Gives every heading the assignments that follow it. -/
def ofLines : List Reader.Line → Document
  | [] => ⟨[], []⟩
  | .assignment assignment :: rest =>
    let document := ofLines rest
    { document with preamble := assignment :: document.preamble }
  | .heading part :: rest =>
    let document := ofLines rest
    ⟨[], { part with assignments := document.preamble } :: document.sections⟩

/-- A byte order mark may come first. -/
def withoutMark : Word → Word
  | '\ufeff' :: rest => rest
  | text => text

def parse? (text : Word) : Option Document :=
  (Reader.bounded Reader.lines (withoutMark text)).map fun read => ofLines read.1

end Document

/-- The entries that a text describes. -/
def read? (text : Word) : Option Entries := (Document.parse? text).bind Document.entries?

end PlantGrowth.Toml
