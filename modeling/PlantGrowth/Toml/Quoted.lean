import PlantGrowth.Word

/-!
# Quoted text

Four ways of quoting. Basic text, between `"`, has escapes introduced by a backslash; literal text,
between a single quote mark, has none. Both also come with three marks on each side and may then
span lines: a line break right after the opening marks is not part of the text, and one or two
marks in a row may occur inside.

Reading first finds where the text ends and then decodes what lies between. Writing takes the
plainest way that can express the text.
-/

namespace PlantGrowth.Toml

namespace Quoted

/-! ## Characters -/

def basicMark : Char := '"'

def literalMark : Char := '\''

/-- Control characters, of which only tabs may stand in a text as they are. -/
def isControl (symbol : Char) : Bool :=
  (symbol.toNat < 0x20 && symbol != '\t') || symbol.toNat == 0x7F

def isSpacing (symbol : Char) : Bool := symbol == ' ' || symbol == '\t'

/-- Line breaks of two characters become one; a carriage return has no other use. -/
def joinLineBreaks : Word → Option Word
  | [] => some []
  | '\r' :: '\n' :: rest => (joinLineBreaks rest).map ('\n' :: ·)
  | symbol :: rest => if symbol == '\r' then none else (joinLineBreaks rest).map (symbol :: ·)

/-! ## Escapes -/

def escapeOf? : Char → Option Char
  | 'b' => some '\x08'
  | 't' => some '\t'
  | 'n' => some '\n'
  | 'f' => some '\x0c'
  | 'r' => some '\r'
  | '"' => some '"'
  | '\\' => some '\\'
  | _ => none

def hexValue? (symbol : Char) : Option Nat :=
  if '0' ≤ symbol && symbol ≤ '9' then some (symbol.toNat - '0'.toNat)
  else if 'a' ≤ symbol && symbol ≤ 'f' then some (symbol.toNat - 'a'.toNat + 10)
  else if 'A' ≤ symbol && symbol ≤ 'F' then some (symbol.toNat - 'A'.toNat + 10)
  else none

def hexNumber? (digits : Word) : Option Nat :=
  digits.foldlM (fun number digit => (hexValue? digit).map (number * 16 + ·)) 0

/-- The symbol with a code point, unless that is none of a symbol. -/
def ofCodePoint? (digits : Word) : Option Char :=
  (hexNumber? digits).bind fun number =>
    if number.isValidChar then some (Char.ofNat number) else none

/-- Is there nothing but spacing before the next line break? -/
def endsLine (text : Word) : Bool := (text.dropWhile isSpacing).head? == some '\n'

/-- Decodes the escapes of basic text. A backslash at the end of a line takes the line break and
all spacing and line breaks after it out of the text; `skipping` says that this is under way. -/
def unescape (skipping : Bool) : Word → Option Word
  | [] => some []
  | symbol :: rest =>
    if skipping && (isSpacing symbol || symbol == '\n') then unescape true rest
    else if symbol != '\\' then (unescape false rest).map (symbol :: ·)
    else
      match rest with
      | 'u' :: a :: b :: c :: d :: after => do
        let decoded ← ofCodePoint? [a, b, c, d]
        (unescape false after).map (decoded :: ·)
      | 'U' :: a :: b :: c :: d :: e :: f :: g :: h :: after => do
        let decoded ← ofCodePoint? [a, b, c, d, e, f, g, h]
        (unescape false after).map (decoded :: ·)
      | [] => none
      | escaped :: after =>
        match escapeOf? escaped with
        | some decoded => (unescape false after).map (decoded :: ·)
        | none => if endsLine (escaped :: after) then unescape true after else none

/-! ## Reading -/

/-- Splits after the closing mark. With escapes, a symbol after a backslash closes nothing. -/
def untilMark (mark : Char) (escapes : Bool) : Word → Option (Word × Word)
  | [] => none
  | symbol :: rest =>
    if symbol == mark then some ([], rest)
    else if escapes && symbol == '\\' then
      match rest with
      | [] => none
      | escaped :: after =>
        (untilMark mark escapes after).map fun split => (symbol :: escaped :: split.1, split.2)
    else (untilMark mark escapes rest).map fun split => (symbol :: split.1, split.2)

/-- Splits after three closing marks. Up to two more marks before them belong to the text. -/
def untilTriple (mark : Char) (escapes : Bool) : Word → Option (Word × Word)
  | [] => none
  | symbol :: rest =>
    match [mark, mark, mark].isPrefixOf? (symbol :: rest) with
    | some after =>
      let kept := (after.take 2).takeWhile (· == mark)
      some (kept, after.drop kept.length)
    | none =>
      if escapes && symbol == '\\' then
        match rest with
        | [] => none
        | escaped :: after =>
          (untilTriple mark escapes after).map fun split => (symbol :: escaped :: split.1, split.2)
      else (untilTriple mark escapes rest).map fun split => (symbol :: split.1, split.2)

def withoutFirstBreak : Word → Word
  | '\n' :: rest => rest
  | text => text

def readLine (mark : Char) (escapes : Bool) (input : Word) : Option (Word × Word) := do
  let (body, rest) ← untilMark mark escapes input
  if body.any isControl then none
  else if escapes then return (← unescape false body, rest)
  else return (body, rest)

def readLines (mark : Char) (escapes : Bool) (input : Word) : Option (Word × Word) := do
  let (body, rest) ← untilTriple mark escapes input
  let text := withoutFirstBreak (← joinLineBreaks body)
  if text.any fun symbol => isControl symbol && symbol != '\n' then none
  else if escapes then return (← unescape false text, rest)
  else return (text, rest)

/-- Text on one line, as keys are quoted. -/
def readOneLine? : Word → Option (Word × Word)
  | '"' :: rest => readLine basicMark true rest
  | '\'' :: rest => readLine literalMark false rest
  | _ => none

def read? : Word → Option (Word × Word)
  | '"' :: '"' :: '"' :: rest => readLines basicMark true rest
  | '\'' :: '\'' :: '\'' :: rest => readLines literalMark false rest
  | input => readOneLine? input

/-! ## Writing -/

/-- The largest number of marks in a row. -/
def longestRun (mark : Char) (text : Word) : Nat :=
  let walked := text.foldl
    (fun (longest, current) symbol =>
      if symbol == mark then (max longest (current + 1), current + 1) else (longest, 0))
    (0, 0)
  walked.1

def escapeCode (symbol : Char) : Word :=
  match symbol with
  | '\x08' => ['\\', 'b']
  | '\t' => ['\\', 't']
  | '\x0c' => ['\\', 'f']
  | '\r' => ['\\', 'r']
  | '\\' => ['\\', '\\']
  | _ =>
    if isControl symbol then
      let digits := (Nat.toDigits 16 symbol.toNat).map Char.toUpper
      ['\\', 'u'] ++ List.replicate (4 - digits.length) '0' ++ digits
    else [symbol]

def basicLine (text : Word) : Word :=
  text.flatMap fun symbol =>
    match symbol with
    | '\n' => ['\\', 'n']
    | '"' => ['\\', '"']
    | _ => escapeCode symbol

/-- Escapes every third mark in a row; `marks` counts those written plainly just before. -/
def basicLines (marks : Nat) : Word → Word
  | [] => []
  | symbol :: rest =>
    if symbol == basicMark then
      if marks == 2 then '\\' :: symbol :: basicLines 0 rest
      else symbol :: basicLines (marks + 1) rest
    else if symbol == '\n' then symbol :: basicLines 0 rest
    else escapeCode symbol ++ basicLines 0 rest

def enclose (marks body : Word) : Word := marks ++ body ++ marks

/-- Three marks on each side, with a line break after the first ones if the text has any. -/
def encloseLines (mark : Char) (text body : Word) : Word :=
  enclose [mark, mark, mark] (if text.contains '\n' then '\n' :: body else body)

/-- The first way that expresses the text, from a plain line to escapes. -/
def write (text : Word) : Word :=
  let control := text.any fun symbol => isControl symbol && symbol != '\n'
  let line := !control && !text.contains '\n'
  let verbatim := !control && !text.contains '\\'
  if line && verbatim && !text.contains basicMark then enclose [basicMark] (basicLine text)
  else if line && !text.contains literalMark then enclose [literalMark] text
  else if verbatim && longestRun basicMark text ≤ 2 then
    encloseLines basicMark text (basicLines 0 text)
  else if !control && longestRun literalMark text ≤ 2 then encloseLines literalMark text text
  else if text.contains '\n' then encloseLines basicMark text (basicLines 0 text)
  else enclose [basicMark] (basicLine text)

def isBare (symbol : Char) : Bool :=
  symbol.isAlphanum || symbol == '_' || symbol == '-'

/-- Keys stay bare where they can. -/
def writeKey (key : Word) : Word :=
  let line := !key.any isControl
  if !key.isEmpty && key.all isBare then key
  else if line && !key.contains '\\' && !key.contains basicMark then
    enclose [basicMark] (basicLine key)
  else if line && !key.contains literalMark then enclose [literalMark] key
  else enclose [basicMark] (basicLine key)

end Quoted

end PlantGrowth.Toml
