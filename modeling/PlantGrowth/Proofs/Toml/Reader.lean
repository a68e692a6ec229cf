import PlantGrowth.Proofs.Toml.Quoted
import PlantGrowth.Proofs.Toml.Scalar
import PlantGrowth.Toml.Document.Printer
import PlantGrowth.Toml.Document.Reader

/-!
# Written lines are read back

Every piece of a line is taken off the front of the text and leaves what stands behind it. Pieces
are followed by symbols that cannot continue them, so each reader stops where the writer did, and a
document is read line by line.
-/

namespace PlantGrowth.Toml.Reader

open Quoted

variable {α β : Type} {input rest : Word} {symbol : Char}

/-! ## Steps -/

theorem bind_eq {reader : Reader α} {next : α → Reader β} {content : α}
    (hreads : reader input = some (content, rest)) :
    (reader >>= next) input = next content rest := by
  change (reader input).bind _ = _
  rw [hreads]
  rfl

theorem accept_append (text rest : Word) : accept text (text ++ rest) = some (true, rest) := by
  have hprefix : text.isPrefixOf? (text ++ rest) = some rest :=
    List.isPrefixOf?_eq_some_iff_append_eq.2 rfl
  rw [accept, hprefix]

theorem accept_cons (symbol : Char) (rest : Word) :
    accept [symbol] (symbol :: rest) = some (true, rest) := accept_append [symbol] rest

theorem accept_other {text : Word} (hother : input.head? ≠ some symbol) :
    accept (symbol :: text) input = some (false, input) := by
  have hnone : (symbol :: text).isPrefixOf? input = none := by
    cases input with
    | nil => rfl
    | cons first rest =>
      have hfirst : symbol ≠ first := by simpa [eq_comm] using hother
      simp [List.isPrefixOf?, hfirst]
  rw [accept, hnone]

theorem expect_append (text rest : Word) : expect text (text ++ rest) = some ((), rest) := by
  have hprefix : text.isPrefixOf? (text ++ rest) = some rest :=
    List.isPrefixOf?_eq_some_iff_append_eq.2 rfl
  rw [expect, hprefix]
  rfl

theorem expect_cons (symbol : Char) (rest : Word) :
    expect [symbol] (symbol :: rest) = some ((), rest) := expect_append [symbol] rest

theorem guard_eq {property : Prop} [Decidable property] (hholds : property) (input : Word) :
    (guard property : Reader Unit) input = some ((), input) := by
  rw [guard, if_pos hholds]
  rfl

/-- A text that does not go on with a symbol that satisfies the test. -/
def Stops (test : Char → Bool) (rest : Word) : Prop :=
  ∀ symbol, rest.head? = some symbol → test symbol = false

theorem stops_cons {test : Char → Bool} (hsymbol : test symbol = false) (rest : Word) :
    Stops test (symbol :: rest) := by
  rintro _ ⟨⟩
  exact hsymbol

theorem takeWhile_append {test : Char → Bool} {text : Word} (htext : text.all test = true)
    (hrest : Stops test rest) : Reader.takeWhile test (text ++ rest) = some (text, rest) := by
  rw [List.all_eq_true] at htext
  rw [Reader.takeWhile, List.takeWhile_append_of_pos htext, List.dropWhile_append_of_pos htext]
  cases rest with
  | nil => simp
  | cons symbol rest => simp [hrest symbol rfl]

/-! ## Blanks -/

/-- Can the symbol be the first of something that is not blank? -/
def isFresh (symbol : Char) : Bool :=
  !isSpacing symbol && symbol != '#' && symbol != '\n' && symbol != '\r'

theorem isFresh_iff : isFresh symbol = true ↔
    isSpacing symbol = false ∧ symbol ≠ '#' ∧ symbol ≠ '\n' ∧ symbol ≠ '\r' := by
  simp [isFresh, and_assoc]

theorem isFresh_of_test {test : Char → Bool} (hsymbol : test symbol = true)
    (hblank : [' ', '\t', '#', '\n', '\r'].any test = false) : isFresh symbol = true := by
  rw [List.any_eq_false] at hblank
  by_contra hstale
  have hmem : symbol ∈ [' ', '\t', '#', '\n', '\r'] := by
    simp only [isFresh, isSpacing, Bool.not_eq_true, Bool.and_eq_false_iff, Bool.not_eq_false',
      Bool.or_eq_true, beq_iff_eq, bne_eq_false_iff_eq] at hstale
    simp only [List.mem_cons, List.not_mem_nil, or_false]
    tauto
  exact hblank symbol hmem hsymbol

theorem spacing_append {blank : Word} (hblank : blank.all isSpacing = true)
    (hsymbol : isSpacing symbol = false) (rest : Word) :
    spacing (blank ++ symbol :: rest) = some ((), symbol :: rest) := by
  rw [List.all_eq_true] at hblank
  rw [spacing, skipWhile, List.dropWhile_append_of_pos hblank]
  simp [hsymbol]

theorem spacing_cons (hsymbol : isSpacing symbol = false) (rest : Word) :
    spacing (symbol :: rest) = some ((), symbol :: rest) :=
  @spacing_append symbol [] rfl hsymbol rest

theorem comment_other (hother : input.head? ≠ some '#') : comment input = some ((), input) := by
  rw [comment, bind_eq (accept_other hother)]
  rfl

theorem lineBreak_other (hnewline : input.head? ≠ some '\n') (hreturn : input.head? ≠ some '\r') :
    lineBreak input = some (false, input) := by
  rw [lineBreak, bind_eq (accept_other hnewline)]
  exact accept_other hreturn

theorem lineEnd_newline (rest : Word) : lineEnd ('\n' :: rest) = some ((), rest) := rfl

/-- Blanks before the elements of an array are skipped. -/
theorem blankLines_append {blank : Word} (hblank : blank.all isSpacing = true)
    (hfresh : isFresh symbol = true) (rest : Word) :
    bounded blankLines (blank ++ symbol :: rest) = some ((), symbol :: rest) := by
  obtain ⟨hspacing, hcomment, hnewline, hreturn⟩ := isFresh_iff.1 hfresh
  rw [bounded, blankLines, bind_eq (spacing_append hblank hspacing rest),
    bind_eq (comment_other (by simpa using hcomment)),
    bind_eq (lineBreak_other (by simpa using hnewline) (by simpa using hreturn))]
  rfl

/-! ## Keys -/

/-- Can the symbol be the first of a key? -/
def isKeyStart (symbol : Char) : Bool :=
  isBare symbol || symbol == basicMark || symbol == literalMark

theorem exists_key_start (key : Word) :
    ∃ first later, writeKey key = first :: later ∧ isKeyStart first = true := by
  cases hkey : isBareKey key with
  | true =>
    rw [writeKey_bare hkey]
    rw [isBareKey, Bool.and_eq_true] at hkey
    cases key with
    | nil => cases hkey.1
    | cons first later => exact ⟨first, later, rfl, by simp_all [isKeyStart]⟩
  | false =>
    obtain ⟨mark, body, hmark, hwritten⟩ := exists_writeKey_eq hkey
    exact ⟨mark, body, hwritten, by rcases hmark with rfl | rfl <;> rfl⟩

theorem keyPart_bare (hsymbol : isBare symbol = true) (rest : Word) :
    keyPart (symbol :: rest) = (do
      let part ← Reader.takeWhile isBare
      guard !part.isEmpty
      return part : Reader Word) (symbol :: rest) := by
  have hpeek : peek (symbol :: rest) = some (some symbol, symbol :: rest) := rfl
  rw [keyPart, bind_eq hpeek]
  apply congrFun
  split
  · rename_i hmark
    exact absurd (Option.some.inj hmark) (ne_of_test hsymbol rfl)
  · rename_i hmark
    exact absurd (Option.some.inj hmark) (ne_of_test hsymbol rfl)
  · rfl

theorem keyPart_writeKey (key : Word) (hrest : Stops isBare rest) :
    keyPart (writeKey key ++ rest) = some (key, rest) := by
  cases hkey : isBareKey key with
  | true =>
    rw [writeKey_bare hkey]
    rw [isBareKey, Bool.and_eq_true] at hkey
    obtain ⟨hsome, hbare⟩ := hkey
    cases key with
    | nil => cases hsome
    | cons first later =>
      have hfirst : isBare first = true := List.all_eq_true.1 hbare first List.mem_cons_self
      rw [List.cons_append, keyPart_bare hfirst, ← List.cons_append,
        bind_eq (takeWhile_append hbare hrest)]
      rfl
  | false =>
    have hread := readOneLine?_writeKey hkey rest
    obtain ⟨mark, body, hmark, hwritten⟩ := exists_writeKey_eq hkey
    rw [hwritten] at hread ⊢
    rcases hmark with rfl | rfl <;> exact hread

/-! ## Paths -/

/-- Can the symbol stand behind a path? -/
def isPathEnd (symbol : Char) : Bool := symbol == '=' || symbol == ']'

theorem pathText_singleton (key : Word) : pathText ⟨[], key⟩ = writeKey key := by
  simp [pathText, joined, KeyPath.parts]

theorem pathText_cons (part : Word) (parents : List Word) (key : Word) :
    pathText ⟨part :: parents, key⟩ = writeKey part ++ '.' :: pathText ⟨parents, key⟩ := by
  cases parents <;> simp [pathText, joined, KeyPath.parts, List.intercalate_cons_cons]

theorem length_parents_lt (path : KeyPath) : path.parents.length < (pathText path).length := by
  obtain ⟨parents, key⟩ := path
  induction parents with
  | nil =>
    obtain ⟨first, later, hwritten, -⟩ := exists_key_start key
    rw [pathText_singleton, hwritten]
    exact Nat.succ_pos _
  | cons part parents ih =>
    rw [pathText_cons]
    simp only [List.length_append, List.length_cons] at ih ⊢
    omega

theorem exists_path_start (path : KeyPath) :
    ∃ first later, pathText path = first :: later ∧ isKeyStart first = true := by
  obtain ⟨parents, key⟩ := path
  cases parents with
  | nil =>
    rw [pathText_singleton]
    exact exists_key_start key
  | cons part parents =>
    obtain ⟨first, later, hwritten, hstart⟩ := exists_key_start part
    exact ⟨first, later ++ '.' :: pathText ⟨parents, key⟩, by rw [pathText_cons, hwritten]; rfl, hstart⟩

/-- A part ends before a blank, a point or the end of the path. -/
theorem keyParts_succ {blank : Word} (hblank : blank.all isSpacing = true)
    (hspacing : isSpacing symbol = false) (hbare : isBare symbol = false) (key : Word) (rounds : ℕ)
    (rest : Word) : keyParts (rounds + 1) (writeKey key ++ (blank ++ symbol :: rest)) = (do
      if ← accept ['.'] then
        let path ← keyParts rounds
        return { path with parents := key :: path.parents }
      else return ⟨[], key⟩ : Reader KeyPath) (symbol :: rest) := by
  have hstops : Stops isBare (blank ++ symbol :: rest) := by
    cases blank with
    | nil => exact stops_cons hbare rest
    | cons first later =>
      have hfirst := List.all_eq_true.1 hblank first List.mem_cons_self
      apply stops_cons
      simp only [isSpacing, Bool.or_eq_true, beq_iff_eq] at hfirst
      rcases hfirst with rfl | rfl <;> rfl
  obtain ⟨first, later, hwritten, hstart⟩ := exists_key_start key
  have hfresh := (isFresh_iff.1 (isFresh_of_test hstart rfl)).1
  have hbegin : spacing (writeKey key ++ (blank ++ symbol :: rest)) =
      some ((), writeKey key ++ (blank ++ symbol :: rest)) := by
    rw [hwritten]
    exact spacing_cons hfresh _
  rw [keyParts, bind_eq hbegin, bind_eq (keyPart_writeKey key hstops),
    bind_eq (spacing_append hblank hspacing rest)]

theorem keyParts_pathText {blank : Word} (hblank : blank.all isSpacing = true)
    (hsymbol : isPathEnd symbol = true) (path : KeyPath) {rounds : ℕ}
    (hrounds : path.parents.length < rounds) (rest : Word) :
    keyParts rounds (pathText path ++ (blank ++ symbol :: rest)) = some (path, symbol :: rest) := by
  have hend : isSpacing symbol = false ∧ isBare symbol = false ∧ symbol ≠ '.' := by
    simp only [isPathEnd, Bool.or_eq_true, beq_iff_eq] at hsymbol
    rcases hsymbol with rfl | rfl <;> exact ⟨rfl, rfl, by decide⟩
  obtain ⟨hspacing, hbare, hpoint⟩ := hend
  obtain ⟨parents, key⟩ := path
  obtain ⟨rounds, rfl⟩ := Nat.exists_eq_succ_of_ne_zero (Nat.ne_zero_of_lt hrounds)
  induction parents generalizing rounds with
  | nil =>
    rw [pathText_singleton, keyParts_succ hblank hspacing hbare,
      bind_eq (accept_other (by simpa using hpoint))]
    rfl
  | cons part parents ih =>
    have hlater : parents.length < rounds := Nat.lt_of_succ_lt_succ hrounds
    obtain ⟨rounds, rfl⟩ := Nat.exists_eq_succ_of_ne_zero (Nat.ne_zero_of_lt hlater)
    have hpart := @keyParts_succ '.' [] rfl rfl rfl part (rounds + 1)
      (pathText ⟨parents, key⟩ ++ (blank ++ symbol :: rest))
    rw [pathText_cons, List.append_assoc, List.cons_append, ← List.nil_append ('.' :: _), hpart,
      bind_eq (accept_cons '.' _), if_pos rfl, bind_eq (ih rounds hlater)]
    rfl

/-- A path is shorter than the nesting limit if it has fewer parts. -/
theorem keyPath_pathText {blank : Word} (hblank : blank.all isSpacing = true)
    (hsymbol : isPathEnd symbol = true) {path : KeyPath} (hshort : path.parts.length < nestingLimit)
    (rest : Word) :
    keyPath (pathText path ++ (blank ++ symbol :: rest)) = some (path, symbol :: rest) := by
  have hrounds : path.parents.length < (pathText path ++ (blank ++ symbol :: rest)).length + 1 := by
    have hparts := length_parents_lt path
    rw [List.length_append]
    omega
  have hparts : bounded keyParts (pathText path ++ (blank ++ symbol :: rest)) =
      some (path, symbol :: rest) := keyParts_pathText hblank hsymbol path hrounds rest
  rw [keyPath, bind_eq hparts, bind_eq (guard_eq hshort _)]
  rfl

/-! ## Values -/

/-- Texts, integers in range and floats that come from 32-bit ones. -/
inductive IsScalar : Value → Prop
  | string (text : Word) : IsScalar (.string text)
  | integer {number : ℤ} : Value.integerInRange number = true → IsScalar (.integer number)
  | float (number : Float32) : IsScalar (.float (Number.widen number))

/-- A value that is written after its key and holds no tables. -/
inductive IsFlat : Value → Prop
  | scalar {value : Value} : IsScalar value → IsFlat value
  | array {elements : List Value} : (∀ value ∈ elements, IsScalar value) → IsFlat (.array elements)

/-- Can the symbol stand behind a value? -/
def isValueEnd (symbol : Char) : Bool := symbol == '\n' || symbol == ',' || symbol == ']'

/-- Can the symbol be the first of a scalar? -/
def isScalarStart (symbol : Char) : Bool :=
  Scalar.isTokenSymbol symbol || symbol == basicMark || symbol == literalMark

theorem ne_of_isValueEnd (hsymbol : isValueEnd symbol = true) :
    Scalar.isTokenSymbol symbol = false ∧ symbol ≠ basicMark ∧ symbol ≠ literalMark := by
  simp only [isValueEnd, Bool.or_eq_true, beq_iff_eq] at hsymbol
  rcases hsymbol with (rfl | rfl) | rfl <;> exact ⟨rfl, by decide, by decide⟩

/-- What is not quoted is a token. -/
theorem IsScalar.string_or_token {value : Value} (hscalar : IsScalar value) :
    (∃ text, value = .string text) ∨ Scalar.Token value.text value := by
  cases hscalar with
  | string text => exact .inl ⟨text, rfl⟩
  | integer hrange => exact .inr (Scalar.token_integer hrange)
  | float number => exact .inr (Scalar.token_widen number)

theorem IsScalar.exists_start {value : Value} (hscalar : IsScalar value) :
    ∃ first later, value.text = first :: later ∧ isScalarStart first = true := by
  rcases hscalar.string_or_token with ⟨text, rfl⟩ | htoken
  · obtain ⟨mark, body, hmark, hwritten⟩ := exists_write_eq text
    refine ⟨mark, body, by rw [Value.text, hwritten], ?_⟩
    rcases hmark with rfl | rfl <;> rfl
  · obtain ⟨first, later, htext⟩ := List.exists_cons_of_ne_nil htoken.ne_nil
    have hsymbols := htoken.symbols
    rw [htext, List.all_cons, Bool.and_eq_true] at hsymbols
    exact ⟨first, later, htext, by simp [isScalarStart, hsymbols.1]⟩

theorem scalar_quoted {text : Word} (hmark : symbol = basicMark ∨ symbol = literalMark)
    (hread : Quoted.read? (symbol :: input) = some (text, rest)) :
    scalar (symbol :: input) = some (.string text, rest) := by
  have hpeek : peek (symbol :: input) = some (some symbol, symbol :: input) := rfl
  rw [scalar, bind_eq hpeek]
  rcases hmark with rfl | rfl <;> exact (bind_eq hread).trans rfl

theorem scalar_unquoted (hbasic : symbol ≠ basicMark) (hliteral : symbol ≠ literalMark)
    (rest : Word) : scalar (symbol :: rest) = unquoted (symbol :: rest) := by
  have hpeek : peek (symbol :: rest) = some (some symbol, symbol :: rest) := rfl
  rw [scalar, bind_eq hpeek]
  apply congrFun
  split
  · rename_i hmark
    exact absurd (Option.some.inj hmark) hbasic
  · rename_i hmark
    exact absurd (Option.some.inj hmark) hliteral
  · rfl

theorem unquoted_token {value : Value} (htoken : Scalar.Token value.text value)
    (hrest : Stops Scalar.isTokenSymbol rest) :
    unquoted (value.text ++ rest) = some (value, rest) := by
  rw [unquoted, bind_eq (takeWhile_append htoken.symbols hrest), if_neg (by simp [htoken.notDate]),
    htoken.read]
  rfl

/-- A scalar is read up to the symbol that ends it. -/
theorem IsScalar.read {value : Value} (hscalar : IsScalar value)
    (hsymbol : isValueEnd symbol = true) (rest : Word) :
    scalar (value.text ++ symbol :: rest) = some (value, symbol :: rest) := by
  obtain ⟨htoken, hbasic, hliteral⟩ := ne_of_isValueEnd hsymbol
  rcases hscalar.string_or_token with ⟨text, rfl⟩ | hvalue
  · have hread := @read?_write (symbol :: rest) text (by simpa using hbasic) (by simpa using hliteral)
    obtain ⟨mark, body, hmark, hwritten⟩ := exists_write_eq text
    rw [Value.text]
    rw [hwritten] at hread ⊢
    exact scalar_quoted hmark hread
  · have hread := unquoted_token hvalue (stops_cons htoken rest)
    obtain ⟨first, later, htext⟩ := List.exists_cons_of_ne_nil hvalue.ne_nil
    have hfirst : Scalar.isTokenSymbol first = true :=
      List.all_eq_true.1 hvalue.symbols first (htext ▸ List.mem_cons_self)
    rw [htext] at hread ⊢
    rw [List.cons_append, scalar_unquoted (ne_of_test hfirst rfl) (ne_of_test hfirst rfl)]
    exact hread

/-! ## Arrays -/

theorem value_scalar {scalar : Value} (hscalar : IsScalar scalar) (hsymbol : isValueEnd symbol = true)
    (depth : ℕ) (rest : Word) :
    value depth (scalar.text ++ symbol :: rest) = some (scalar, symbol :: rest) := by
  have hread := hscalar.read hsymbol rest
  cases depth with
  | zero => exact hread
  | succ depth =>
    obtain ⟨first, later, htext, hstart⟩ := hscalar.exists_start
    rw [htext] at hread ⊢
    have hbracket : first ≠ '[' := ne_of_test hstart rfl
    have hbrace : first ≠ '\x7b' := ne_of_test hstart rfl
    rw [value, bind_eq (accept_other (by simpa using hbracket))]
    exact (bind_eq (accept_other (by simpa using hbrace))).trans hread

/-- An element ends at a comma or at the closing bracket. -/
theorem elements_succ {first : Value} (hfirst : IsScalar first) {blank : Word}
    (hblank : blank.all isSpacing = true) (hsymbol : symbol = ',' ∨ symbol = ']') (depth rounds : ℕ)
    (rest : Word) :
    elements (value depth) (rounds + 1) (blank ++ (first.text ++ symbol :: rest)) = (do
      if ← accept [','] then return first :: (← elements (value depth) rounds)
      expect [']']
      return [first] : Reader (List Value)) (symbol :: rest) := by
  have hend : isValueEnd symbol = true ∧ isFresh symbol = true := by
    rcases hsymbol with rfl | rfl <;> exact ⟨rfl, rfl⟩
  have hread := value_scalar hfirst hend.1 depth rest
  obtain ⟨start, later, htext, hstart⟩ := hfirst.exists_start
  have hbracket : start ≠ ']' := ne_of_test hstart rfl
  rw [htext] at hread ⊢
  rw [elements, List.cons_append, bind_eq (blankLines_append hblank (isFresh_of_test hstart rfl) _),
    bind_eq (accept_other (by simpa using hbracket)), if_neg Bool.false_ne_true]
  exact (bind_eq hread).trans (bind_eq (@blankLines_append symbol [] rfl hend.2 rest))

/-- The elements of an array are read up to its closing bracket. -/
theorem elements_joined {scalars : List Value} (hscalars : ∀ value ∈ scalars, IsScalar value)
    {blank : Word} (hblank : blank.all isSpacing = true) (depth : ℕ) {rounds : ℕ}
    (hrounds : scalars.length < rounds) (rest : Word) :
    elements (value depth) rounds
      (blank ++ (joined ", ".toList (elementTexts scalars) ++ ']' :: rest)) = some (scalars, rest) := by
  -- The blank of a separator goes to the element behind it, so the induction is for every blank.
  induction scalars generalizing rounds blank with
  | nil =>
    obtain ⟨rounds, rfl⟩ := Nat.exists_eq_succ_of_ne_zero (Nat.ne_zero_of_lt hrounds)
    have hclose : joined ", ".toList (elementTexts []) ++ ']' :: rest = ']' :: rest := rfl
    rw [elements, hclose, bind_eq (blankLines_append hblank rfl rest),
      bind_eq (accept_cons ']' rest)]
    rfl
  | cons first others ih =>
    obtain ⟨rounds, rfl⟩ := Nat.exists_eq_succ_of_ne_zero (Nat.ne_zero_of_lt hrounds)
    obtain ⟨hfirst, hothers⟩ := List.forall_mem_cons.1 hscalars
    cases others with
    | nil =>
      have hlast : joined ", ".toList (elementTexts [first]) ++ ']' :: rest =
          first.text ++ ']' :: rest := by
        simp [joined, elementTexts]
      have hcomma : (']' :: rest).head? ≠ some ',' := by simp
      rw [hlast, elements_succ hfirst hblank (.inr rfl), bind_eq (accept_other hcomma),
        if_neg Bool.false_ne_true]
      exact bind_eq (expect_cons ']' rest)
    | cons second others =>
      have hnext : joined ", ".toList (elementTexts (first :: second :: others)) ++ ']' :: rest =
          first.text ++ ',' :: ([' '] ++
            (joined ", ".toList (elementTexts (second :: others)) ++ ']' :: rest)) := by
        simp [joined, elementTexts, List.intercalate_cons_cons]
      have hlater := @ih hothers [' '] rfl rounds (Nat.lt_of_succ_lt_succ hrounds)
      rw [hnext, elements_succ hfirst hblank (.inl rfl), bind_eq (accept_cons ',' _), if_pos rfl]
      exact bind_eq hlater

theorem length_le_joined {scalars : List Value} (hscalars : ∀ value ∈ scalars, IsScalar value) :
    scalars.length ≤ (joined ", ".toList (elementTexts scalars)).length := by
  induction scalars with
  | nil => exact Nat.zero_le _
  | cons first others ih =>
    obtain ⟨hfirst, hothers⟩ := List.forall_mem_cons.1 hscalars
    obtain ⟨start, later, htext, -⟩ := hfirst.exists_start
    have hrest := ih hothers
    cases others with
    | nil => simp [joined, elementTexts, htext]
    | cons second others =>
      simp only [joined, elementTexts, List.intercalate_cons_cons, htext, List.length_append,
        List.length_cons] at hrest ⊢
      omega

/-- A flat value is read up to the symbol that ends it. -/
theorem value_flat {flat : Value} (hflat : IsFlat flat) (hsymbol : isValueEnd symbol = true)
    (depth : ℕ) (rest : Word) :
    value (depth + 1) (flat.text ++ symbol :: rest) = some (flat, symbol :: rest) := by
  cases hflat with
  | scalar hscalar => exact value_scalar hscalar hsymbol (depth + 1) rest
  | @array scalars hscalars =>
    have hrounds : scalars.length <
        (joined ", ".toList (elementTexts scalars) ++ ']' :: symbol :: rest).length + 1 := by
      have hlength := length_le_joined hscalars
      rw [List.length_append]
      omega
    have hread : bounded (elements (value depth))
        (joined ", ".toList (elementTexts scalars) ++ ']' :: symbol :: rest) =
          some (scalars, symbol :: rest) :=
      @elements_joined scalars hscalars [] rfl depth _ hrounds (symbol :: rest)
    have htext : (Value.array scalars).text ++ symbol :: rest =
        '[' :: (joined ", ".toList (elementTexts scalars) ++ ']' :: symbol :: rest) := by
      simp [Value.text]
    rw [htext, value, bind_eq (accept_cons '[' _)]
    exact bind_eq hread

/-! ## Lines -/

/-- Can the assignment be read back from its line? -/
structure IsLine (assignment : Assignment) : Prop where
  short : assignment.target.parts.length < nestingLimit
  flat : IsFlat assignment.value

theorem IsFlat.exists_start {flat : Value} (hflat : IsFlat flat) :
    ∃ first later, flat.text = first :: later ∧ isSpacing first = false := by
  cases hflat with
  | scalar hscalar =>
    obtain ⟨start, later, htext, hstart⟩ := hscalar.exists_start
    exact ⟨start, later, htext, (isFresh_iff.1 (isFresh_of_test hstart rfl)).1⟩
  | array => exact ⟨'[', _, by rw [Value.text]; rfl, rfl⟩

theorem assignment_line {written : Assignment} (hline : IsLine written) (depth : ℕ) (rest : Word) :
    assignment (value (depth + 1)) (written.line ++ rest) = some (written, '\n' :: rest) := by
  obtain ⟨first, later, htext, hspacing⟩ := hline.flat.exists_start
  have hinput : written.line ++ rest =
      pathText written.target ++ ([' '] ++ '=' :: ([' '] ++ (written.value.text ++ '\n' :: rest))) := by
    simp [Assignment.line, assignmentText]
  have hspaces : spacing ([' '] ++ (written.value.text ++ '\n' :: rest)) =
      some ((), written.value.text ++ '\n' :: rest) := by
    rw [htext]
    exact spacing_append rfl hspacing _
  rw [hinput, assignment, bind_eq (keyPath_pathText rfl rfl hline.short _),
    bind_eq (expect_cons '=' _), bind_eq hspaces, bind_eq (value_flat hline.flat rfl depth rest)]
  rfl

/-- The heading of a section without its assignments. -/
def headingOf (part : Section) : Section := { part with assignments := [] }

theorem line_heading {part : Section} (hshort : part.path.parts.length < nestingLimit)
    (rest : Word) :
    line ((headingOf part).text ++ rest) = some (.heading (headingOf part), '\n' :: rest) := by
  obtain ⟨isElement, path, assignments⟩ := part
  have hpath (closing : Word) :
      keyPath (pathText path ++ ']' :: closing) = some (path, ']' :: closing) :=
    @keyPath_pathText ']' [] rfl rfl path hshort closing
  cases isElement with
  | true =>
    have hheading : heading ('[' :: (pathText path ++ ']' :: ']' :: '\n' :: rest)) =
        some (headingOf ⟨true, path, assignments⟩, '\n' :: rest) := by
      rw [heading, bind_eq (accept_cons '[' _), bind_eq (hpath _), if_pos rfl]
      exact bind_eq (expect_append [']', ']'] _)
    have hinput : (headingOf ⟨true, path, assignments⟩).text ++ rest =
        '[' :: '[' :: (pathText path ++ ']' :: ']' :: '\n' :: rest) := by
      simp [headingOf, Section.text]
    rw [hinput, line, bind_eq (accept_cons '[' _), if_pos rfl]
    exact bind_eq hheading
  | false =>
    obtain ⟨first, later, hwritten, hstart⟩ := exists_path_start path
    have hbracket : (pathText path ++ ']' :: '\n' :: rest).head? ≠ some '[' := by
      rw [hwritten]
      simpa using (ne_of_test hstart rfl : first ≠ '[')
    have hheading : heading (pathText path ++ ']' :: '\n' :: rest) =
        some (headingOf ⟨false, path, assignments⟩, '\n' :: rest) := by
      rw [heading, bind_eq (accept_other hbracket), bind_eq (hpath _), if_neg Bool.false_ne_true]
      exact bind_eq (expect_cons ']' _)
    have hinput : (headingOf ⟨false, path, assignments⟩).text ++ rest =
        '[' :: (pathText path ++ ']' :: '\n' :: rest) := by
      simp [headingOf, Section.text]
    rw [hinput, line, bind_eq (accept_cons '[' _), if_pos rfl]
    exact bind_eq hheading

theorem exists_line_start (written : Assignment) :
    ∃ first later, written.line = first :: later ∧ isKeyStart first = true := by
  obtain ⟨first, later, hpath, hstart⟩ := exists_path_start written.target
  exact ⟨first, later ++ (" = ".toList ++ written.value.text ++ ['\n']),
    by simp [Assignment.line, assignmentText, hpath], hstart⟩

theorem line_assignment {written : Assignment} (hline : IsLine written) (rest : Word) :
    line (written.line ++ rest) = some (.assignment written, '\n' :: rest) := by
  obtain ⟨first, later, hwritten, hstart⟩ := exists_line_start written
  have hbracket : (written.line ++ rest).head? ≠ some '[' := by
    rw [hwritten]
    simpa using (ne_of_test hstart rfl : first ≠ '[')
  rw [line, bind_eq (accept_other hbracket), if_neg Bool.false_ne_true]
  exact bind_eq (assignment_line hline 78 rest)

/-- Lines that are read from a text, whatever number of rounds suffices for its length. -/
def ReadAs (text : Word) (found : List Line) : Prop :=
  ∀ rounds, text.length < rounds → lines rounds text = some (found, [])

theorem readAs_nil : ReadAs [] [] := by
  intro rounds hrounds
  obtain ⟨rounds, rfl⟩ := Nat.exists_eq_succ_of_ne_zero (Nat.ne_zero_of_lt hrounds)
  rfl

variable {text : Word} {found : List Line}

theorem ReadAs.newline (hread : ReadAs text found) : ReadAs ('\n' :: text) found := by
  intro rounds hrounds
  obtain ⟨rounds, rfl⟩ := Nat.exists_eq_succ_of_ne_zero (Nat.ne_zero_of_lt hrounds)
  exact hread rounds (Nat.lt_of_succ_lt_succ hrounds)

/-- A line that is not blank is read before those that follow. -/
theorem ReadAs.cons {start : Word} {first : Line}
    (hline : line (start ++ text) = some (first, '\n' :: text))
    (hstart : ∃ symbol later, start = symbol :: later ∧ isFresh symbol = true)
    (hread : ReadAs text found) : ReadAs (start ++ text) (first :: found) := by
  intro rounds hrounds
  obtain ⟨symbol, later, rfl, hfresh⟩ := hstart
  obtain ⟨rounds, rfl⟩ := Nat.exists_eq_succ_of_ne_zero (Nat.ne_zero_of_lt hrounds)
  have hfewer : text.length < rounds := by
    simp only [List.cons_append, List.length_cons, List.length_append] at hrounds
    omega
  obtain ⟨hspacing, hcomment, hnewline, hreturn⟩ := isFresh_iff.1 hfresh
  have hpeek : peek (symbol :: later ++ text) = some (some symbol, symbol :: later ++ text) := rfl
  have hblank : isBlankLine (some symbol) = false := by
    rw [isBlankLine.eq_def]
    split <;> simp_all
  rw [lines, List.cons_append, bind_eq (spacing_cons hspacing _), ← List.cons_append, bind_eq hpeek,
    if_neg (by simp), if_neg (by simp [hblank]), bind_eq hline, bind_eq (lineEnd_newline text),
    bind_eq (hread rounds hfewer)]
  rfl

theorem ReadAs.assignments {assignments : List Assignment} (hread : ReadAs text found)
    (hlines : ∀ written ∈ assignments, IsLine written) :
    ReadAs (assignments.flatMap Assignment.line ++ text)
      (assignments.map .assignment ++ found) := by
  induction assignments with
  | nil => exact hread
  | cons first others ih =>
    obtain ⟨hfirst, hothers⟩ := List.forall_mem_cons.1 hlines
    obtain ⟨symbol, later, hline, hstart⟩ := exists_line_start first
    rw [List.flatMap_cons, List.append_assoc]
    exact (ih hothers).cons (line_assignment hfirst _)
      ⟨symbol, later, hline, isFresh_of_test hstart rfl⟩

/-- Can the section be read back from its lines? -/
structure IsSection (part : Section) : Prop where
  short : part.path.parts.length < nestingLimit
  lines : ∀ written ∈ part.assignments, IsLine written

/-- The lines of a section. -/
def sectionLines (part : Section) : List Line :=
  .heading (headingOf part) :: part.assignments.map .assignment

theorem ReadAs.section {part : Section} (hread : ReadAs text found) (hpart : IsSection part) :
    ReadAs (part.text ++ text) (sectionLines part ++ found) := by
  have hlater := hread.assignments hpart.lines
  have hline := @line_heading part hpart.short (part.assignments.flatMap Assignment.line ++ text)
  have hinput : part.text ++ text =
      (headingOf part).text ++ (part.assignments.flatMap Assignment.line ++ text) := by
    cases helement : part.isElement <;> simp [Section.text, headingOf, helement]
  have hstart : ∃ symbol later, (headingOf part).text = symbol :: later ∧ isFresh symbol = true := by
    obtain ⟨isElement, path, assignments⟩ := part
    cases isElement <;> exact ⟨'[', _, rfl, rfl⟩
  rw [hinput]
  exact hlater.cons hline hstart

theorem readAs_sections {sections : List Section} (hsections : ∀ part ∈ sections, IsSection part) :
    ReadAs (joined ['\n'] (sections.map Section.text)) (sections.flatMap sectionLines) := by
  induction sections with
  | nil => exact readAs_nil
  | cons first others ih =>
    obtain ⟨hfirst, hothers⟩ := List.forall_mem_cons.1 hsections
    cases others with
    | nil =>
      have hread := readAs_nil.section hfirst
      simpa [joined] using hread
    | cons second others =>
      have hread := (ih hothers).newline.section hfirst
      simpa [joined, List.intercalate_cons_cons] using hread

/-! ## Documents -/

/-- Can the document be read back from its text? -/
structure IsPlainDocument (document : Document) : Prop where
  preamble : ∀ written ∈ document.preamble, IsLine written
  sections : ∀ part ∈ document.sections, IsSection part

theorem readAs_text {document : Document} (hplain : IsPlainDocument document) :
    ReadAs document.text
      (document.preamble.map .assignment ++ document.sections.flatMap sectionLines) := by
  have hsections := readAs_sections hplain.sections
  rw [Document.text]
  split
  · exact hsections.assignments hplain.preamble
  · exact hsections.newline.assignments hplain.preamble

theorem ofLines_assignments (assignments : List Assignment) (found : List Line) :
    Document.ofLines (assignments.map .assignment ++ found) =
      { Document.ofLines found with
        preamble := assignments ++ (Document.ofLines found).preamble } := by
  induction assignments with
  | nil => rfl
  | cons first others ih => rw [List.map_cons, List.cons_append, Document.ofLines, ih]; rfl

theorem ofLines_sections (sections : List Section) :
    Document.ofLines (sections.flatMap sectionLines) = ⟨[], sections⟩ := by
  induction sections with
  | nil => rfl
  | cons first others ih =>
    rw [List.flatMap_cons, sectionLines, List.cons_append, Document.ofLines, ofLines_assignments, ih]
    simp [headingOf]

theorem withoutMark_eq (hhead : text.head? ≠ some '\ufeff') : Document.withoutMark text = text := by
  rw [Document.withoutMark.eq_def]
  split
  · simp at hhead
  · rfl

/-- A document starts with a key or a bracket, if with anything. -/
theorem head?_text (document : Document) : document.text.head? ≠ some '\ufeff' := by
  obtain ⟨preamble, sections⟩ := document
  cases preamble with
  | cons first others =>
    obtain ⟨symbol, later, hline, hstart⟩ := exists_line_start first
    have hsymbol : symbol ≠ '\ufeff' := ne_of_test hstart rfl
    rw [Document.text]
    split <;> simpa [hline] using hsymbol
  | nil =>
    cases sections with
    | nil => simp [Document.text, joined]
    | cons first others =>
      cases helement : first.isElement <;> cases others <;>
        simp [Document.text, joined, Section.text, helement, List.intercalate_cons_cons]

/-- A document is read back from its text. -/
theorem parse?_text {document : Document} (hplain : IsPlainDocument document) :
    Document.parse? document.text = some document := by
  have hread := readAs_text hplain (document.text.length + 1) (Nat.lt_succ_self _)
  have hlines : bounded lines document.text = some
      (document.preamble.map .assignment ++ document.sections.flatMap sectionLines, []) := hread
  rw [Document.parse?, withoutMark_eq (head?_text document), hlines, Option.map_some,
    ofLines_assignments, ofLines_sections]
  simp

end PlantGrowth.Toml.Reader
