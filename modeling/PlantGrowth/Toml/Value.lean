import PlantGrowth.Number

/-!
# Value trees

The values that a TOML document can hold. A table lists its entries in the order of the document
and has at most one entry per key.

A record is a table with an entry for every field, or an array of the fields in their order; what
is beyond the fields does not matter. A variant is named by a text, or is the only entry of a table
that holds what the variant carries. Decoding undoes encoding and refuses whatever has another
shape.
-/

namespace PlantGrowth.Toml

inductive Value
  | string (text : Word)
  | integer (number : Int)
  | float (number : Float)
  | boolean (truth : Bool)
  | datetime (text : Word)
  | array (elements : List Value)
  | table (entries : List (Word × Value))

abbrev Entries := List (Word × Value)

namespace Value

def isTable : Value → Bool
  | .table _ => true
  | _ => false

/-- Integers have 64 bits. -/
def integerMin : Int := -9223372036854775808

def integerMax : Int := 9223372036854775807

def integerInRange (number : Int) : Bool := integerMin ≤ number && number ≤ integerMax

/-- An array of tables, which can be written as sections of its own. -/
def isSectionArray : Value → Bool
  | .array [] => false
  | .array elements => elements.all isTable
  | _ => false

/-- A value that is written after its key, on one line. -/
def isPlain (value : Value) : Bool := !value.isTable && !value.isSectionArray

/-! ## Records and variants -/

/-- The fields of a record in order. -/
def fields? (names : List Word) : Value → Option (List Value)
  | .table entries => names.mapM fun name => entries.lookup name
  | .array elements =>
    if names.length ≤ elements.length then some (elements.take names.length) else none
  | _ => none

/-- The fields of a record whose table has no other entries. -/
def exactFields? (names : List Word) (value : Value) : Option (List Value) :=
  match value with
  | .table entries =>
    if entries.all fun entry => names.contains entry.1 then value.fields? names else none
  | _ => value.fields? names

/-- The name of a variant and what it carries, if anything. -/
def variant? : Value → Option (Word × Option Value)
  | .string name => some (name, none)
  | .table [(name, carried)] => some (name, some carried)
  | _ => none

/-- A variant without content may be spelled with an empty one. -/
def carriesNothing : Option Value → Bool
  | none => true
  | some (.table entries) => entries.isEmpty
  | some (.array elements) => elements.isEmpty
  | some _ => false

def text? : Value → Option Word
  | .string text => some text
  | _ => none

/-- The key that a date has where a table is expected. -/
def dateKey : Word := "$__toml_private_datetime".toList

/-- The entries of a table of arbitrary keys. A date reads as a table with one reserved key. -/
def entries? : Value → Option Entries
  | .table entries => some entries
  | .datetime text => some [(dateKey, .string text)]
  | _ => none

def natural? : Value → Option Nat
  | .integer number => if 0 ≤ number then some number.toNat else none
  | _ => none

/-- A 32-bit float is written as the equal 64-bit one. -/
def ofFloat32 (number : Float32) : Value := .float (Number.widen number)

/-- A number of either kind, rounded once. -/
def float32? : Value → Option Float32
  | .float number => some (Number.narrow number)
  | .integer number => some (Number.ofInteger number)
  | _ => none

def ofFloats (numbers : List Float32) : Value := .array (numbers.map ofFloat32)

def record (fields : List (String × Value)) : Value :=
  .table (fields.map fun field => (field.1.toList, field.2))

end Value

end PlantGrowth.Toml
