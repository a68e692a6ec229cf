import PlantGrowth.Number
import PlantGrowth.Toml.Document
import PlantGrowth.Toml.Quoted

/-!
# Writing documents

Every assignment is one line. A section starts with its heading, after an empty line unless it
opens the document. Integers beyond 64 bits cannot be written.
-/

namespace PlantGrowth.Toml

def joined (separator : Word) (parts : List Word) : Word := separator.intercalate parts

def pathText (path : KeyPath) : Word := joined ['.'] (path.parts.map Quoted.writeKey)

def assignmentText (key value : Word) : Word := key ++ " = ".toList ++ value

mutual

/-- The text of a value on one line. -/
def Value.text : Value → Word
  | .string text => Quoted.write text
  | .integer number => (toString number).toList
  | .float number => Number.documentText number
  | .boolean true => "true".toList
  | .boolean false => "false".toList
  | .datetime text => text
  | .array elements => '[' :: joined ", ".toList (elementTexts elements) ++ [']']
  | .table [] => ['\x7b', '\x7d']
  | .table entries => "\x7b ".toList ++ joined ", ".toList (entryTexts entries) ++ " \x7d".toList

def elementTexts : List Value → List Word
  | [] => []
  | value :: rest => value.text :: elementTexts rest

def entryTexts : List (Word × Value) → List Word
  | [] => []
  | (key, value) :: rest => assignmentText (Quoted.writeKey key) value.text :: entryTexts rest

end

mutual

/-- Are all integers of a value in range? -/
def Value.isWritable : Value → Bool
  | .integer number => Value.integerInRange number
  | .array elements => areWritable elements
  | .table entries => haveWritableValues entries
  | _ => true

def areWritable : List Value → Bool
  | [] => true
  | value :: rest => value.isWritable && areWritable rest

def haveWritableValues : List (Word × Value) → Bool
  | [] => true
  | (_, value) :: rest => value.isWritable && haveWritableValues rest

end

def Assignment.line (assignment : Assignment) : Word :=
  assignmentText (pathText assignment.target) assignment.value.text ++ ['\n']

def Section.text (part : Section) : Word :=
  let path := pathText part.path
  let heading := if part.isElement then "[[".toList ++ path ++ "]]\n".toList
    else '[' :: path ++ "]\n".toList
  heading ++ part.assignments.flatMap Assignment.line

def Document.text (document : Document) : Word :=
  let preamble := document.preamble.flatMap Assignment.line
  let sections := joined ['\n'] (document.sections.map Section.text)
  if preamble.isEmpty || document.sections.isEmpty then preamble ++ sections
  else preamble ++ '\n' :: sections

/-- The text of some entries, if all their integers can be written. -/
def write? (entries : Entries) : Option Word :=
  if haveWritableValues entries then some (Document.ofEntries entries).text else none

end PlantGrowth.Toml
