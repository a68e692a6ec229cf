import PlantGrowth.Grammar.Basic
import PlantGrowth.Proofs.Text.Blank

/-!
# Reading written rules

A rule is written with white space around its parts, in any amount. Reading accepts the written
rules and nothing else, and finds the rule that was written: the first arrow of such a text is the
one behind the symbol, even if the symbol is itself a part of an arrow or the replacement has arrows
of its own. The other texts are returned as they are, with the part of a rule that they lack.
-/

namespace PlantGrowth

open Text

namespace Rule

def arrow : Word := ['-', '>']

/-! ## The first arrow -/

theorem splitArrow_cons {symbol : Char} {rest : Word} (harrow : ¬ arrow <+: symbol :: rest) :
    splitArrow (symbol :: rest) =
      (splitArrow rest).map fun sides ↦ (symbol :: sides.1, sides.2) := by
  rw [splitArrow]
  intro later hsymbol hrest
  apply harrow
  rw [hsymbol, hrest]
  exact ⟨later, rfl⟩

theorem splitArrow_eq_none_iff {text : Word} : splitArrow text = none ↔ ¬ arrow <:+: text := by
  induction text with
  | nil => decide
  | cons symbol rest ih =>
    rw [List.infix_cons_iff]
    by_cases harrow : arrow <+: symbol :: rest
    · obtain ⟨right, hright⟩ := harrow
      rw [← hright]
      simp [arrow, splitArrow]
    · rw [splitArrow_cons harrow, Option.map_eq_none_iff, ih]
      simp [harrow]

theorem eq_of_splitArrow {text left right : Word} (hsplit : splitArrow text = some (left, right)) :
    text = left ++ arrow ++ right := by
  induction text generalizing left with
  | nil => cases hsplit
  | cons symbol rest ih =>
    by_cases harrow : arrow <+: symbol :: rest
    · obtain ⟨later, hlater⟩ := harrow
      rw [← hlater] at hsplit ⊢
      cases hsplit
      rfl
    · rw [splitArrow_cons harrow, Option.map_eq_some_iff] at hsplit
      obtain ⟨sides, hrest, hsides⟩ := hsplit
      cases hsides
      exact congrArg (symbol :: ·) (ih hrest)

/-- An arrow behind a text is the first one if none is in the text or begins at its end. -/
theorem splitArrow_append {left : Word} (hfree : ¬ arrow <:+: left ++ ['-']) (right : Word) :
    splitArrow (left ++ arrow ++ right) = some (left, right) := by
  induction left with
  | nil => rfl
  | cons symbol rest ih =>
    have hstart : ¬ arrow <+: symbol :: (rest ++ arrow ++ right) := by
      rintro ⟨later, hlater⟩
      apply hfree
      obtain ⟨rfl, htail⟩ := List.cons.inj hlater
      cases rest with
      | nil => cases htail
      | cons second others =>
        obtain ⟨rfl, -⟩ := List.cons.inj htail
        exact ⟨[], others ++ ['-'], rfl⟩
    have hrest : ¬ arrow <:+: rest ++ ['-'] := fun hinfix ↦
      hfree (List.infix_cons_iff.2 (Or.inr hinfix))
    rw [List.cons_append, List.cons_append, splitArrow_cons hstart, ih hrest]
    rfl

/-- A symbol among white space makes no arrow with the one behind it, whatever symbol it is. -/
theorem not_arrow_of_padded {front back : Word} (hfront : Blank front) (hback : Blank back)
    (symbol : Char) : ¬ arrow <:+: front ++ [symbol] ++ back ++ ['-'] := by
  -- Only the symbol itself can be the head of an arrow, and there is no dash before it.
  have hhead : '>' ∉ back ++ ['-'] := by
    intro hmem
    rcases List.mem_append.1 hmem with hblank | hdash
    · exact absurd (hback _ hblank) (by decide)
    · exact absurd hdash (by decide)
  induction front with
  | nil =>
    intro hinfix
    rcases List.infix_cons_iff.1 hinfix with hstart | hlater
    · obtain ⟨later, hlater⟩ := hstart
      have htail : '>' :: later = back ++ ['-'] := (List.cons.inj hlater).2
      exact hhead (htail ▸ List.mem_cons_self)
    · exact hhead (hlater.subset (by decide))
  | cons first rest ih =>
    intro hinfix
    rcases List.infix_cons_iff.1 hinfix with hstart | hlater
    · obtain ⟨later, hlater⟩ := hstart
      obtain ⟨rfl, -⟩ := List.cons.inj hlater
      exact absurd (hfront '-' List.mem_cons_self) (by decide)
    · exact ih (fun other hother ↦ hfront other (List.mem_cons_of_mem _ hother)) hlater

/-! ## Written rules -/

/-- Rules that can be written: white space is no symbol, and none stands at the ends of a
replacement. -/
structure Writable (rule : Rule) : Prop where
  symbol : isBlank rule.symbol = false
  replacement : Trimmed rule.replacement

/-- The white space around the parts of a written rule. -/
structure Spacing where
  front : Word
  beforeArrow : Word
  afterArrow : Word
  back : Word

structure Spacing.IsBlank (spacing : Spacing) : Prop where
  front : Blank spacing.front
  beforeArrow : Blank spacing.beforeArrow
  afterArrow : Blank spacing.afterArrow
  back : Blank spacing.back

/-- The sides of the arrow, with the white space around them. -/
def write (rule : Rule) (spacing : Spacing) : Word :=
  spacing.front ++ [rule.symbol] ++ spacing.beforeArrow ++ arrow ++
    (spacing.afterArrow ++ rule.replacement ++ spacing.back)

/-- The text is the rule, with white space around its parts. -/
def WrittenAs (rule : Rule) (text : Word) : Prop :=
  rule.Writable ∧ ∃ spacing : Spacing, spacing.IsBlank ∧ text = rule.write spacing

variable {rule : Rule} {text : Word}

theorem parse_of_splitArrow {left right : Word} (hsplit : splitArrow text = some (left, right)) :
    parse text =
      match (trim left).single? with
      | none => .error ⟨text, .predecessorNotSingle⟩
      | some symbol => .ok ⟨symbol, trim right⟩ := by
  cases hsymbol : (trim left).single? <;> simp only [parse, hsplit, hsymbol]

theorem parse_write (hrule : rule.Writable) {spacing : Spacing} (hspacing : spacing.IsBlank) :
    parse (rule.write spacing) = .ok rule := by
  have hfree := not_arrow_of_padded hspacing.front hspacing.beforeArrow rule.symbol
  have hleft : trim (spacing.front ++ [rule.symbol] ++ spacing.beforeArrow) = [rule.symbol] :=
    trim_append hspacing.front (trimmed_singleton.2 hrule.symbol) hspacing.beforeArrow
  have hright : trim (spacing.afterArrow ++ rule.replacement ++ spacing.back) = rule.replacement :=
    trim_append hspacing.afterArrow hrule.replacement hspacing.back
  rw [write, parse_of_splitArrow (splitArrow_append hfree _), hleft, hright]
  rfl

/-- The two sides of the arrow, trimmed, are the parts of the rule. -/
theorem exists_sides_of_parse (hparse : parse text = .ok rule) :
    ∃ left right, text = left ++ arrow ++ right ∧ trim left = [rule.symbol] ∧
      trim right = rule.replacement := by
  cases hsplit : splitArrow text with
  | none =>
    rw [parse, hsplit] at hparse
    cases hparse
  | some sides =>
    obtain ⟨left, right⟩ := sides
    rw [parse_of_splitArrow hsplit] at hparse
    cases hsingle : (trim left).single? with
    | none =>
      rw [hsingle] at hparse
      cases hparse
    | some symbol =>
      rw [hsingle] at hparse
      cases hparse
      exact ⟨left, right, eq_of_splitArrow hsplit, Word.single?_eq_some_iff.1 hsingle, rfl⟩

theorem writtenAs_of_parse (hparse : parse text = .ok rule) : rule.WrittenAs text := by
  obtain ⟨left, right, rfl, hleft, hright⟩ := exists_sides_of_parse hparse
  obtain ⟨hsymbol, front, beforeArrow, hfront, hbefore, rfl⟩ := trim_eq_iff.1 hleft
  obtain ⟨hreplacement, afterArrow, back, hafter, hback, rfl⟩ := trim_eq_iff.1 hright
  exact ⟨⟨trimmed_singleton.1 hsymbol, hreplacement⟩, ⟨front, beforeArrow, afterArrow, back⟩,
    ⟨hfront, hbefore, hafter, hback⟩, rfl⟩

theorem parse_eq_ok_iff : parse text = .ok rule ↔ rule.WrittenAs text := by
  constructor
  · exact writtenAs_of_parse
  · intro hwritten
    obtain ⟨hrule, spacing, hspacing, rfl⟩ := hwritten
    exact parse_write hrule hspacing

/-! ## Texts that are no rules -/

theorem parse_of_no_arrow (hnone : ¬ arrow <:+: text) : parse text = .error ⟨text, .missingArrow⟩ := by
  rw [parse, splitArrow_eq_none_iff.2 hnone]

theorem parse_of_not_written (harrow : arrow <:+: text) (hnone : ∀ rule : Rule, ¬ rule.WrittenAs text) :
    parse text = .error ⟨text, .predecessorNotSingle⟩ := by
  cases hsplit : splitArrow text with
  | none => exact absurd harrow (splitArrow_eq_none_iff.1 hsplit)
  | some sides =>
    rw [parse_of_splitArrow hsplit]
    cases hsingle : (trim sides.1).single? with
    | none => rfl
    | some symbol =>
      have hparse : parse text = .ok ⟨symbol, trim sides.2⟩ := by
        rw [parse_of_splitArrow hsplit, hsingle]
      exact absurd (writtenAs_of_parse hparse) (hnone _)

/-- A text is read as the one rule that it writes, whatever white space it is written with. A text
that writes no rule is returned as it is: it has no arrow, or it has one without a single symbol
before it. So a rule that is written is set like one that is given by its parts. -/
theorem exactly_written_rules_are_read :
    (∀ (text : Word) (rule : Rule), parse text = .ok rule ↔ rule.WrittenAs text) ∧
    (∀ (text : Word) (rule other : Rule),
      rule.WrittenAs text → other.WrittenAs text → other = rule) ∧
    (∀ text : Word, ¬ arrow <:+: text → parse text = .error ⟨text, .missingArrow⟩) ∧
    (∀ text : Word, arrow <:+: text → (∀ rule : Rule, ¬ rule.WrittenAs text) →
      parse text = .error ⟨text, .predecessorNotSingle⟩) ∧
    (RuleFault.missingArrow.reason = "missing `->`" ∧
      RuleFault.predecessorNotSingle.reason = "predecessor must be exactly one symbol") ∧
    ∀ rule : Rule, rule.Writable → ∀ spacing : Spacing, spacing.IsBlank →
      parse (rule.write spacing) = .ok rule ∧
      ∀ grammar : Grammar, grammar.setWrittenRule (rule.write spacing) =
        .ok (grammar.setRule rule.symbol rule.replacement) := by
  refine ⟨fun text rule ↦ parse_eq_ok_iff, ?_, fun text ↦ parse_of_no_arrow,
    fun text ↦ parse_of_not_written, ⟨rfl, rfl⟩, ?_⟩
  · intro text rule other hrule hother
    rw [← parse_eq_ok_iff] at hrule hother
    exact Except.ok.inj (hother.symm.trans hrule)
  · intro rule hrule spacing hspacing
    have hparse := parse_write hrule hspacing
    refine ⟨hparse, ?_⟩
    intro grammar
    rw [Grammar.setWrittenRule, hparse]
    rfl

/-- A rule for a dash, one for the head of an arrow, and texts that lack a part. -/
theorem exactly_written_rules_are_read_dash :
    parse "-->F".toList = .ok ⟨'-', ['F']⟩ ∧
    parse "\t>->\u2003A->B \n".toList = .ok ⟨'>', "A->B".toList⟩ ∧
    parse "A = FA".toList = .error ⟨"A = FA".toList, .missingArrow⟩ ∧
    parse " -> F".toList = .error ⟨" -> F".toList, .predecessorNotSingle⟩ := by
  obtain ⟨hread, -, hmissing, hlacking, -, hwrite⟩ := exactly_written_rules_are_read
  have hdash : (⟨'-', ['F']⟩ : Rule).WrittenAs "-->F".toList :=
    ⟨⟨by decide, by decide⟩, ⟨[], [], [], []⟩, ⟨by decide, by decide, by decide, by decide⟩, rfl⟩
  have hhead : (⟨'>', "A->B".toList⟩ : Rule).Writable := ⟨by decide, by decide⟩
  have hspacing : (⟨['\t'], [], ['\u2003'], [' ', '\n']⟩ : Spacing).IsBlank :=
    ⟨by decide, by decide, by decide, by decide⟩
  have hnone (rule : Rule) : ¬ rule.WrittenAs " -> F".toList := by
    intro hwritten
    cases (hread _ _).2 hwritten
  exact ⟨(hread _ _).2 hdash, (hwrite _ hhead _ hspacing).1, hmissing _ (by decide),
    hlacking _ (by decide) hnone⟩

end Rule

end PlantGrowth
