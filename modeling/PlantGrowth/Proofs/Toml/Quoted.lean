import Mathlib.Data.List.Basic
import Mathlib.Tactic.IntervalCases
import PlantGrowth.Toml.Quoted

/-!
# Quoted text is read back

Whichever way a text is quoted, what stands between the marks never has more marks in a row than
the way allows, so reading finds the end where writing put it. What lies between is the text itself
or spells it code by code, and decoding undoes each code.
-/

namespace PlantGrowth.Toml.Quoted

variable {mark symbol : Char} {escapes : Bool} {limit marks : ℕ} {body code rest text : Word}

/-! ## Finding the end -/

/-- What may stand between marks: at most so many marks in a row, the given number of which stand
just before. With escapes, what follows a backslash is no mark. -/
inductive Body (mark : Char) (escapes : Bool) (limit : ℕ) : ℕ → Word → Prop
  | nil {marks : ℕ} : Body mark escapes limit marks []
  | mark {marks : ℕ} {rest : Word} : marks < limit → Body mark escapes limit (marks + 1) rest →
    Body mark escapes limit marks (mark :: rest)
  | plain {marks : ℕ} {symbol : Char} {rest : Word} : symbol ≠ mark →
    (escapes = true → symbol ≠ '\\') → Body mark escapes limit 0 rest →
    Body mark escapes limit marks (symbol :: rest)
  | escaped {marks : ℕ} {symbol : Char} {rest : Word} : escapes = true →
    Body mark escapes limit 0 rest → Body mark escapes limit marks ('\\' :: symbol :: rest)

theorem untilMark_plain (hother : symbol ≠ mark) (hplain : escapes = true → symbol ≠ '\\')
    (rest : Word) : untilMark mark escapes (symbol :: rest) =
      (untilMark mark escapes rest).map fun split ↦ (symbol :: split.1, split.2) := by
  have hnoEscape : ¬(escapes = true ∧ symbol = '\\') := fun h ↦ hplain h.1 h.2
  rw [untilMark.eq_def]
  simp [hother, hnoEscape]

theorem untilMark_escaped (hmark : mark ≠ '\\') (hescapes : escapes = true) (symbol : Char)
    (rest : Word) : untilMark mark escapes ('\\' :: symbol :: rest) =
      (untilMark mark escapes rest).map fun split ↦ ('\\' :: symbol :: split.1, split.2) := by
  rw [untilMark.eq_def]
  simp [hmark.symm, hescapes]

theorem untilMark_body (hmark : mark ≠ '\\') (hbody : Body mark escapes 0 marks body) :
    untilMark mark escapes (body ++ mark :: rest) = some (body, rest) := by
  induction hbody with
  | nil =>
    rw [List.nil_append, untilMark.eq_def]
    simp
  | mark hless => omega
  | plain hother hplain _ ih =>
    rw [List.cons_append, untilMark_plain hother hplain, ih]
    rfl
  | escaped hescapes _ ih =>
    rw [List.cons_append, List.cons_append, untilMark_escaped hmark hescapes, ih]
    rfl

/-- The marks that a body starts with. -/
theorem Body.exists_leading (hmark : mark ≠ '\\') (hbody : Body mark escapes limit marks body)
    (hmarks : marks ≤ limit) :
    ∃ count, count + marks ≤ limit ∧ (body = List.replicate count mark ∨
      ∃ symbol rest, symbol ≠ mark ∧ body = List.replicate count mark ++ symbol :: rest) := by
  induction hbody with
  | nil => exact ⟨0, by omega, .inl rfl⟩
  | mark hless _ ih =>
    obtain ⟨count, hcount, hshape⟩ := ih hless
    refine ⟨count + 1, by omega, ?_⟩
    rcases hshape with rfl | ⟨symbol, rest, hother, rfl⟩
    · exact .inl rfl
    · exact .inr ⟨symbol, rest, hother, rfl⟩
  | plain hother _ _ _ => exact ⟨0, by omega, .inr ⟨_, _, hother, rfl⟩⟩
  | escaped _ _ _ => exact ⟨0, by omega, .inr ⟨_, _, hmark.symm, rfl⟩⟩

theorem untilTriple_close {after : Word}
    (hclose : [mark, mark, mark].isPrefixOf? (symbol :: rest) = some after) :
    untilTriple mark escapes (symbol :: rest) = some ((after.take 2).takeWhile (· == mark),
      after.drop ((after.take 2).takeWhile (· == mark)).length) := by
  rw [untilTriple.eq_def]
  simp only [hclose]

theorem untilTriple_plain (hopen : [mark, mark, mark].isPrefixOf? (symbol :: rest) = none)
    (hplain : escapes = true → symbol ≠ '\\') : untilTriple mark escapes (symbol :: rest) =
      (untilTriple mark escapes rest).map fun split ↦ (symbol :: split.1, split.2) := by
  have hnoEscape : ¬(escapes = true ∧ symbol = '\\') := fun h ↦ hplain h.1 h.2
  rw [untilTriple.eq_def]
  simp [hopen, hnoEscape]

theorem untilTriple_escaped (hmark : mark ≠ '\\') (hescapes : escapes = true) (symbol : Char)
    (rest : Word) : untilTriple mark escapes ('\\' :: symbol :: rest) =
      (untilTriple mark escapes rest).map fun split ↦ ('\\' :: symbol :: split.1, split.2) := by
  rw [untilTriple.eq_def]
  simp [List.isPrefixOf?, hmark, hescapes]

/-- Marks right before the closing ones belong to the text. -/
theorem untilTriple_marks {count : ℕ} (hcount : count ≤ 2) (hrest : rest.head? ≠ some mark) :
    untilTriple mark escapes (List.replicate count mark ++ mark :: mark :: mark :: rest) =
      some (List.replicate count mark, rest) := by
  have hclose : [mark, mark, mark].isPrefixOf?
      (List.replicate count mark ++ mark :: mark :: mark :: rest) =
        some (List.replicate count mark ++ rest) := by
    interval_cases count <;> simp [List.isPrefixOf?, List.replicate]
  have hkept : ((List.replicate count mark ++ rest).take 2).takeWhile (· == mark) =
      List.replicate count mark := by
    have hnone (kept : ℕ) : (rest.take kept).takeWhile (· == mark) = [] := by
      cases rest with
      | nil => simp
      | cons symbol rest =>
        have hother : symbol ≠ mark := by simpa using hrest
        cases kept <;> simp [hother]
    interval_cases count
    · simpa using hnone 2
    · simpa [List.replicate] using hnone 1
    · simp [List.replicate]
  obtain ⟨symbol, later, hinput⟩ : ∃ symbol later,
      List.replicate count mark ++ mark :: mark :: mark :: rest = symbol :: later := by
    cases count <;> exact ⟨_, _, rfl⟩
  rw [hinput] at hclose ⊢
  rw [untilTriple_close hclose, hkept, List.length_replicate]
  simp

theorem untilTriple_body (hmark : mark ≠ '\\') (hbody : Body mark escapes 2 marks body)
    (hmarks : marks ≤ 2) (hrest : rest.head? ≠ some mark) :
    untilTriple mark escapes (body ++ mark :: mark :: mark :: rest) = some (body, rest) := by
  induction hbody with
  | nil => exact @untilTriple_marks mark escapes rest 0 (by decide) hrest
  | @mark marks later hless hlater ih =>
    -- Another symbol follows after at most two marks, so three of them only stand at the end.
    obtain ⟨count, hcount, rfl | ⟨symbol, tail, hother, rfl⟩⟩ := hlater.exists_leading hmark hless
    · exact @untilTriple_marks mark escapes rest (count + 1) (by omega) hrest
    · have hopen : [mark, mark, mark].isPrefixOf?
          (mark :: (List.replicate count mark ++ symbol :: tail ++ mark :: mark :: mark :: rest)) =
            none := by
        have hfew : count ≤ 1 := by omega
        interval_cases count <;> simp [List.isPrefixOf?, List.replicate, hother.symm]
      rw [List.cons_append, untilTriple_plain hopen fun _ ↦ hmark, ih hless]
      rfl
  | @plain _ symbol later hother hplain _ ih =>
    have hopen : [mark, mark, mark].isPrefixOf?
        (symbol :: (later ++ mark :: mark :: mark :: rest)) = none := by
      simp [List.isPrefixOf?, hother.symm]
    rw [List.cons_append, untilTriple_plain hopen hplain, ih (by decide)]
    rfl
  | escaped hescapes _ ih =>
    rw [List.cons_append, List.cons_append, untilTriple_escaped hmark hescapes, ih (by decide)]
    rfl

/-- The longest run of marks and the one that is under way, after one more symbol. -/
def countMark (mark : Char) (runs : ℕ × ℕ) (symbol : Char) : ℕ × ℕ :=
  if symbol == mark then (max runs.1 (runs.2 + 1), runs.2 + 1) else (runs.1, 0)

theorem longestRun_eq (mark : Char) (text : Word) :
    longestRun mark text = (text.foldl (countMark mark) (0, 0)).1 := rfl

theorem le_foldl_countMark (mark : Char) (text : Word) (runs : ℕ × ℕ) :
    runs.1 ≤ (text.foldl (countMark mark) runs).1 := by
  induction text generalizing runs with
  | nil => exact le_rfl
  | cons symbol rest ih =>
    have hstep : runs.1 ≤ (countMark mark runs symbol).1 := by
      rw [countMark]
      split
      · exact le_max_left _ _
      · exact le_rfl
    exact hstep.trans (ih _)

/-- A text without escapes is a body if it has few marks in a row. -/
theorem body_of_foldl_countMark {runs : ℕ × ℕ}
    (htext : (text.foldl (countMark mark) runs).1 ≤ limit) : Body mark false limit runs.2 text := by
  induction text generalizing runs with
  | nil => exact .nil
  | cons symbol rest ih =>
    rw [List.foldl_cons] at htext
    by_cases hsame : symbol = mark
    · have hstep : countMark mark runs symbol = (max runs.1 (runs.2 + 1), runs.2 + 1) := by
        rw [countMark, if_pos (beq_iff_eq.2 hsame)]
      rw [hstep] at htext
      have hrun := (le_max_right runs.1 _).trans ((le_foldl_countMark mark rest _).trans htext)
      rw [hsame]
      exact .mark hrun (ih htext)
    · have hstep : countMark mark runs symbol = (runs.1, 0) := by
        rw [countMark, if_neg (by simpa using hsame)]
      rw [hstep] at htext
      exact .plain hsame (by simp) (ih htext)

/-! ## Codes -/

/-- A way of spelling a symbol: as it is, by an escape of its own, or by its number. -/
inductive Code : Word → Char → Prop
  | plain {symbol : Char} : symbol ≠ '\\' → symbol ≠ basicMark → isControl symbol = false →
    Code [symbol] symbol
  | short {escaped symbol : Char} : escapeOf? escaped = some symbol → Code ['\\', escaped] symbol
  | long {a b c d symbol : Char} : [a, b, c, d].all Char.isAlphanum = true →
    ofCodePoint? [a, b, c, d] = some symbol → Code ['\\', 'u', a, b, c, d] symbol

theorem toNat_lt_of_isControl (hcontrol : isControl symbol = true) : symbol.toNat < 128 := by
  simp only [isControl, Bool.or_eq_true, Bool.and_eq_true, decide_eq_true_eq, beq_iff_eq] at hcontrol
  omega

/-- What holds of the first 128 symbols holds of the control characters. -/
theorem forall_isControl {property : Char → Prop}
    (hascii : ∀ number : Fin 128, isControl (Char.ofNat number) = true →
      property (Char.ofNat number)) (hcontrol : isControl symbol = true) : property symbol := by
  have hsymbol := hascii ⟨symbol.toNat, toNat_lt_of_isControl hcontrol⟩
  rw [Char.ofNat_toNat] at hsymbol
  exact hsymbol hcontrol

theorem isControl_of_isAlphanum (halphanum : symbol.isAlphanum = true) :
    isControl symbol = false := by
  rw [Bool.eq_false_iff]
  intro hcontrol
  have hnone : symbol.isAlphanum = false :=
    @forall_isControl symbol (fun symbol ↦ symbol.isAlphanum = false) (by decide) hcontrol
  simp [halphanum] at hnone

theorem ne_of_test {test : Char → Bool} {other : Char} (hsymbol : test symbol = true)
    (hother : test other = false) : symbol ≠ other := by
  rintro rfl
  simp [hsymbol] at hother

theorem escapeOf?_escaped {escaped : Char} (hescape : escapeOf? escaped = some symbol) :
    escaped ≠ 'u' ∧ escaped ≠ 'U' ∧ isControl escaped = false := by
  rw [escapeOf?.eq_def] at hescape
  split at hescape <;> cases hescape <;> exact ⟨by decide, by decide, rfl⟩

theorem Code.any_isControl (hcode : Code code symbol) : code.any isControl = false := by
  cases hcode with
  | plain _ _ hcontrol => simp [hcontrol]
  | short hescape =>
    have hbackslash : isControl '\\' = false := rfl
    simp [hbackslash, (escapeOf?_escaped hescape).2.2]
  | long hdigits _ =>
    have hbackslash : isControl '\\' = false := rfl
    have hnumbered : isControl 'u' = false := rfl
    simp only [List.all_cons, List.all_nil, Bool.and_true, Bool.and_eq_true] at hdigits
    obtain ⟨ha, hb, hc, hd⟩ := hdigits
    simp [hbackslash, hnumbered, isControl_of_isAlphanum ha, isControl_of_isAlphanum hb,
      isControl_of_isAlphanum hc, isControl_of_isAlphanum hd]

theorem unescape_plain (hbackslash : symbol ≠ '\\') (rest : Word) :
    unescape false (symbol :: rest) = (unescape false rest).map (symbol :: ·) := by
  rw [unescape.eq_def]
  simp [hbackslash]

/-- Decoding undoes one code after the other. -/
theorem Code.unescape_append (hcode : Code code symbol) (rest : Word) :
    unescape false (code ++ rest) = (unescape false rest).map (symbol :: ·) := by
  cases hcode with
  | plain hbackslash => exact unescape_plain hbackslash rest
  | @short escaped _ hescape =>
    obtain ⟨hlower, hupper, -⟩ := escapeOf?_escaped hescape
    rw [List.cons_append, List.singleton_append, unescape.eq_def]
    simp only [Bool.false_and, Bool.false_eq_true, if_false, bne_self_eq_false]
    split
    · simp_all
    · simp_all
    · simp_all
    · simp_all
  | long _ hnumber =>
    rw [unescape.eq_def]
    simp [hnumber]

theorem Code.body_append (hcode : Code code symbol) (hrest : Body basicMark true limit 0 rest) :
    Body basicMark true limit marks (code ++ rest) := by
  cases hcode with
  | plain hbackslash hmark => exact .plain hmark (fun _ ↦ hbackslash) hrest
  | short => exact .escaped rfl hrest
  | long hdigits _ =>
    simp only [List.all_cons, List.all_nil, Bool.and_true, Bool.and_eq_true] at hdigits
    obtain ⟨ha, hb, hc, hd⟩ := hdigits
    have hdigit {digit : Char} {later : Word} (halphanum : digit.isAlphanum = true)
        (hlater : Body basicMark true limit 0 later) : Body basicMark true limit 0 (digit :: later) :=
      .plain (ne_of_test halphanum rfl) (fun _ ↦ ne_of_test halphanum rfl) hlater
    exact .escaped rfl (hdigit ha (hdigit hb (hdigit hc (hdigit hd hrest))))

/-- Is the code an escape of the symbol? -/
def isEscape (code : Word) (symbol : Char) : Bool :=
  match code with
  | ['\\', escaped] => escapeOf? escaped == some symbol
  | ['\\', 'u', a, b, c, d] =>
    [a, b, c, d].all Char.isAlphanum && ofCodePoint? [a, b, c, d] == some symbol
  | _ => false

theorem code_of_isEscape (hescape : isEscape code symbol = true) : Code code symbol := by
  rw [isEscape.eq_def] at hescape
  split at hescape
  · exact .short (beq_iff_eq.1 hescape)
  · rw [Bool.and_eq_true, beq_iff_eq] at hescape
    exact .long hescape.1 hescape.2
  · cases hescape

theorem code_escapeCode (hmark : symbol ≠ basicMark) : Code (escapeCode symbol) symbol := by
  by_cases hcontrol : isControl symbol = true
  · apply code_of_isEscape
    exact @forall_isControl symbol (fun symbol ↦ isEscape (escapeCode symbol) symbol = true)
      (by decide) hcontrol
  · rw [escapeCode.eq_def]
    split <;> first | exact code_of_isEscape rfl | skip
    rename_i hbackslash
    rw [if_neg hcontrol]
    exact .plain hbackslash hmark (Bool.eq_false_iff.2 hcontrol)

/-! ## Spelling whole texts -/

/-- The code of a symbol in basic text on one line. -/
def lineCode (symbol : Char) : Word :=
  match symbol with
  | '\n' => ['\\', 'n']
  | '"' => ['\\', '"']
  | _ => escapeCode symbol

theorem basicLine_eq (text : Word) : basicLine text = text.flatMap lineCode := rfl

theorem code_lineCode (symbol : Char) : Code (lineCode symbol) symbol := by
  rw [lineCode.eq_def]
  split
  · exact .short rfl
  · exact .short rfl
  · rename_i hmark
    exact code_escapeCode hmark

theorem body_basicLine (text : Word) : Body basicMark true 0 0 (basicLine text) := by
  rw [basicLine_eq]
  induction text with
  | nil => exact .nil
  | cons symbol rest ih =>
    rw [List.flatMap_cons]
    exact (code_lineCode symbol).body_append ih

theorem unescape_basicLine (text : Word) : unescape false (basicLine text) = some text := by
  rw [basicLine_eq]
  induction text with
  | nil => rfl
  | cons symbol rest ih =>
    rw [List.flatMap_cons, (code_lineCode symbol).unescape_append, ih]
    rfl

theorem any_isControl_basicLine (text : Word) : (basicLine text).any isControl = false := by
  rw [basicLine_eq]
  induction text with
  | nil => rfl
  | cons symbol rest ih =>
    rw [List.flatMap_cons, List.any_append, (code_lineCode symbol).any_isControl, ih]
    rfl

/-- How a text that spans lines is continued, by the kind of its next symbol. -/
theorem basicLines_cons (marks : ℕ) (symbol : Char) (rest : Word) :
    (symbol = basicMark ∧ marks = 2 ∧
        basicLines marks (symbol :: rest) = '\\' :: basicMark :: basicLines 0 rest) ∨
      (symbol = basicMark ∧ marks ≠ 2 ∧
        basicLines marks (symbol :: rest) = basicMark :: basicLines (marks + 1) rest) ∨
      (symbol = '\n' ∧ basicLines marks (symbol :: rest) = '\n' :: basicLines 0 rest) ∨
      (Code (escapeCode symbol) symbol ∧
        basicLines marks (symbol :: rest) = escapeCode symbol ++ basicLines 0 rest) := by
  rw [basicLines]
  by_cases hmark : symbol = basicMark
  · subst hmark
    by_cases hfull : marks = 2
    · exact .inl ⟨rfl, hfull, by simp [hfull]⟩
    · exact .inr (.inl ⟨rfl, hfull, by simp [hfull]⟩)
  · by_cases hbreak : symbol = '\n'
    · subst hbreak
      exact .inr (.inr (.inl ⟨rfl, rfl⟩))
    · exact .inr (.inr (.inr ⟨code_escapeCode hmark, by simp [hmark, hbreak]⟩))

theorem body_basicLines (hmarks : marks ≤ 2) (text : Word) :
    Body basicMark true 2 marks (basicLines marks text) := by
  induction text generalizing marks with
  | nil => exact .nil
  | cons symbol rest ih =>
    rcases basicLines_cons marks symbol rest with
      ⟨-, -, hlines⟩ | ⟨-, hfew, hlines⟩ | ⟨-, hlines⟩ | ⟨hcode, hlines⟩ <;> rw [hlines]
    · exact .escaped rfl (ih (by decide))
    · exact .mark (by omega) (ih (by omega))
    · exact .plain (by decide) (by decide) (ih (by decide))
    · exact hcode.body_append (ih (by decide))

theorem unescape_basicLines (marks : ℕ) (text : Word) :
    unescape false (basicLines marks text) = some text := by
  induction text generalizing marks with
  | nil => rfl
  | cons symbol rest ih =>
    rcases basicLines_cons marks symbol rest with
      ⟨rfl, -, hlines⟩ | ⟨rfl, -, hlines⟩ | ⟨rfl, hlines⟩ | ⟨hcode, hlines⟩ <;> rw [hlines]
    · have hescaped : Code ['\\', basicMark] basicMark := .short rfl
      exact (hescaped.unescape_append _).trans (by rw [ih]; rfl)
    · rw [unescape_plain (by decide), ih]
      rfl
    · rw [unescape_plain (by decide), ih]
      rfl
    · rw [hcode.unescape_append, ih]
      rfl

/-- Of the control characters only the line breaks of the text itself stay. -/
theorem isControl_basicLines (hmem : symbol ∈ basicLines marks text)
    (hcontrol : isControl symbol = true) : symbol = '\n' ∧ '\n' ∈ text := by
  induction text generalizing marks with
  | nil => cases hmem
  | cons first rest ih =>
    have hrest {marks : ℕ} (hlater : symbol ∈ basicLines marks rest) :
        symbol = '\n' ∧ '\n' ∈ first :: rest :=
      ⟨(ih hlater).1, List.mem_cons_of_mem _ (ih hlater).2⟩
    have hplain (other : Char) (hother : isControl other = false) : symbol ≠ other := by
      rintro rfl
      simp [hother] at hcontrol
    rcases basicLines_cons marks first rest with
      ⟨-, -, hlines⟩ | ⟨-, -, hlines⟩ | ⟨rfl, hlines⟩ | ⟨hcode, hlines⟩ <;> rw [hlines] at hmem
    · exact hrest ((List.mem_cons.1 ((List.mem_cons.1 hmem).resolve_left (hplain _ rfl))).resolve_left
        (hplain _ rfl))
    · exact hrest ((List.mem_cons.1 hmem).resolve_left (hplain _ rfl))
    · rcases List.mem_cons.1 hmem with rfl | hlater
      · exact ⟨rfl, List.mem_cons_self⟩
      · exact hrest hlater
    · rcases List.mem_append.1 hmem with hfirst | hlater
      · have hnone := List.any_eq_false.1 hcode.any_isControl symbol hfirst
        exact absurd hcontrol hnone
      · exact hrest hlater

/-! ## Between single marks -/

/-- What a body stands for: itself, or what its escapes decode to. -/
def decoded? (escapes : Bool) (body : Word) : Option Word :=
  if escapes then unescape false body else some body

theorem readLine_body (hmark : mark ≠ '\\') (hbody : Body mark escapes 0 0 body)
    (hplain : body.any isControl = false) (hdecoded : decoded? escapes body = some text)
    (rest : Word) : readLine mark escapes (body ++ mark :: rest) = some (text, rest) := by
  rw [readLine, untilMark_body hmark hbody]
  simp only [Option.bind_eq_bind, Option.bind_some, hplain, Bool.false_eq_true, if_false]
  cases escapes with
  | true =>
    have hunescape : unescape false body = some text := hdecoded
    rw [hunescape]
    rfl
  | false =>
    have hsame : body = text := Option.some.inj hdecoded
    rw [hsame]
    rfl

theorem readOneLine?_basicLine (text rest : Word) :
    readOneLine? (enclose [basicMark] (basicLine text) ++ rest) = some (text, rest) := by
  have hread := readLine_body (by decide) (body_basicLine text) (any_isControl_basicLine text)
    (unescape_basicLine text) rest
  simpa [enclose, readOneLine?, basicMark] using hread

theorem body_literal (limit : ℕ) (habsent : literalMark ∉ text) :
    Body literalMark false limit 0 text := by
  induction text with
  | nil => exact .nil
  | cons symbol rest ih =>
    obtain ⟨hother, hrest⟩ := List.ne_and_not_mem_of_not_mem_cons habsent
    exact .plain hother.symm (by simp) (ih hrest)

theorem readOneLine?_literal (habsent : literalMark ∉ text) (hplain : text.any isControl = false)
    (rest : Word) : readOneLine? (enclose [literalMark] text ++ rest) = some (text, rest) := by
  have hread := readLine_body (by decide) (body_literal 0 habsent) hplain rfl rest
  simpa [enclose, readOneLine?, literalMark] using hread

/-- Text on one line does not start with the mark, so it is not taken for text between three. -/
theorem Body.read?_enclose (hmark : mark ≠ '\\') (hbody : Body mark escapes 0 0 body)
    (hrest : rest.head? ≠ some mark) :
    read? (enclose [mark] body ++ rest) = readOneLine? (enclose [mark] body ++ rest) := by
  have hshort (later : Word) : body ++ mark :: rest ≠ mark :: mark :: later := by
    cases hbody with
    | nil =>
      intro hequal
      simp only [List.nil_append, List.cons.injEq, true_and] at hequal
      simp [hequal] at hrest
    | mark hless => omega
    | plain hother => simp [hother]
    | escaped => simp [hmark.symm]
  have hinput : enclose [mark] body ++ rest = mark :: (body ++ mark :: rest) := by simp [enclose]
  rw [hinput, read?.eq_def]
  split
  · rename_i later hequal
    obtain ⟨rfl, htriple⟩ := List.cons.inj hequal
    exact absurd htriple (hshort later)
  · rename_i later hequal
    obtain ⟨rfl, htriple⟩ := List.cons.inj hequal
    exact absurd htriple (hshort later)
  · rfl

/-! ## Between three marks -/

theorem joinLineBreaks_eq (hplain : '\r' ∉ body) : joinLineBreaks body = some body := by
  induction body with
  | nil => rfl
  | cons symbol rest ih =>
    obtain ⟨hsymbol, hrest⟩ := List.ne_and_not_mem_of_not_mem_cons hplain
    rw [joinLineBreaks.eq_def]
    split
    · contradiction
    · rename_i hequal
      exact absurd (List.cons.inj hequal).1.symm hsymbol
    · rename_i hequal
      obtain ⟨rfl, rfl⟩ := List.cons.inj hequal
      rw [if_neg (by simpa using hsymbol.symm), ih hrest]
      rfl

theorem withoutFirstBreak_eq (hbreaks : '\n' ∈ body → '\n' ∈ text) :
    withoutFirstBreak (if text.contains '\n' then '\n' :: body else body) = body := by
  split
  · rfl
  · rename_i hnone
    have hbody : '\n' ∉ body := fun hmem ↦ hnone (List.contains_iff_mem.2 (hbreaks hmem))
    rw [withoutFirstBreak.eq_def]
    split
    · simp at hbody
    · rfl

/-- A text that spans lines starts behind a line break. -/
theorem readLines_body (hmark : mark ≠ '\\') (hnoBreak : mark ≠ '\n')
    (hbody : Body mark escapes 2 0 body)
    (hplain : ∀ symbol ∈ body, isControl symbol = true → symbol = '\n' ∧ '\n' ∈ text)
    (hdecoded : decoded? escapes body = some text) (hrest : rest.head? ≠ some mark) :
    readLines mark escapes
      ((if text.contains '\n' then '\n' :: body else body) ++ mark :: mark :: mark :: rest) =
        some (text, rest) := by
  have hstart : Body mark escapes 2 0 (if text.contains '\n' then '\n' :: body else body) := by
    split
    · exact .plain hnoBreak.symm (fun _ ↦ by decide) hbody
    · exact hbody
  have hreturn : '\r' ∉ if text.contains '\n' then '\n' :: body else body := by
    have hnone : '\r' ∉ body := fun hmem ↦ absurd (hplain _ hmem rfl).1 (by decide)
    split
    · exact List.not_mem_cons_of_ne_of_not_mem (by decide) hnone
    · exact hnone
  have hcontrol : (body.any fun symbol ↦ isControl symbol && symbol != '\n') = false := by
    rw [List.any_eq_false]
    intro symbol hmem
    by_cases hsymbol : isControl symbol = true
    · simp [(hplain symbol hmem hsymbol).1]
    · simp [hsymbol]
  have hbreaks : '\n' ∈ body → '\n' ∈ text := fun hmem ↦ (hplain _ hmem rfl).2
  rw [readLines, untilTriple_body hmark hstart (by decide) hrest]
  simp only [Option.bind_eq_bind, Option.bind_some, joinLineBreaks_eq hreturn,
    withoutFirstBreak_eq hbreaks, hcontrol, Bool.false_eq_true, if_false]
  cases escapes with
  | true =>
    have hunescape : unescape false body = some text := hdecoded
    rw [hunescape]
    rfl
  | false =>
    have hsame : body = text := Option.some.inj hdecoded
    rw [hsame]
    rfl

theorem read?_basicLines (text : Word) (hrest : rest.head? ≠ some basicMark) :
    read? (encloseLines basicMark text (basicLines 0 text) ++ rest) = some (text, rest) := by
  have hread := readLines_body (by decide) (by decide) (body_basicLines (by decide) text)
    (fun symbol hmem ↦ isControl_basicLines hmem) (unescape_basicLines 0 text) hrest
  simpa [encloseLines, enclose, read?, basicMark] using hread

theorem read?_literalLines (hruns : longestRun literalMark text ≤ 2)
    (hplain : ∀ symbol ∈ text, isControl symbol = true → symbol = '\n')
    (hrest : rest.head? ≠ some literalMark) :
    read? (encloseLines literalMark text text ++ rest) = some (text, rest) := by
  rw [longestRun_eq] at hruns
  have hbody : Body literalMark false 2 0 text := body_of_foldl_countMark hruns
  have hcontrol : ∀ symbol ∈ text, isControl symbol = true → symbol = '\n' ∧ '\n' ∈ text := by
    intro symbol hmem hcontrol
    have hbreak := hplain symbol hmem hcontrol
    exact ⟨hbreak, hbreak ▸ hmem⟩
  have hread := readLines_body (by decide) (by decide) hbody hcontrol rfl hrest
  simpa [encloseLines, enclose, read?, literalMark] using hread

/-! ## All ways -/

theorem eq_newline_of_isControl
    (hplain : (!text.any fun symbol ↦ isControl symbol && symbol != '\n') = true) :
    ∀ symbol ∈ text, isControl symbol = true → symbol = '\n' := by
  intro symbol hmem hcontrol
  rw [Bool.not_eq_true', List.any_eq_false] at hplain
  simpa [hcontrol] using hplain symbol hmem

/-- A text is read back, however it is quoted, unless another mark follows. -/
theorem read?_write (text : Word) (hbasic : rest.head? ≠ some basicMark)
    (hliteral : rest.head? ≠ some literalMark) : read? (write text ++ rest) = some (text, rest) := by
  have hline : read? (enclose [basicMark] (basicLine text) ++ rest) = some (text, rest) := by
    rw [(body_basicLine text).read?_enclose (by decide) hbasic, readOneLine?_basicLine]
  rw [write]
  split
  · exact hline
  split
  · rename_i hsingle
    simp only [Bool.and_eq_true] at hsingle
    obtain ⟨⟨hcontrol, hbreak⟩, habsent⟩ := hsingle
    have hliterals : literalMark ∉ text := by simpa using habsent
    have hbreaks : '\n' ∉ text := by simpa using hbreak
    have hplain : text.any isControl = false := by
      rw [List.any_eq_false]
      intro symbol hmem hsymbol
      exact hbreaks (eq_newline_of_isControl hcontrol symbol hmem hsymbol ▸ hmem)
    rw [(body_literal 0 hliterals).read?_enclose (by decide) hliteral,
      readOneLine?_literal hliterals hplain]
  split
  · exact read?_basicLines text hbasic
  split
  · rename_i hsingle
    rw [Bool.and_eq_true, decide_eq_true_eq] at hsingle
    exact read?_literalLines hsingle.2 (eq_newline_of_isControl hsingle.1) hliteral
  split
  · exact read?_basicLines text hbasic
  · exact hline

theorem exists_write_eq (text : Word) :
    ∃ mark body, (mark = basicMark ∨ mark = literalMark) ∧ write text = mark :: body := by
  rw [write]
  split
  · exact ⟨basicMark, _, .inl rfl, rfl⟩
  split
  · exact ⟨literalMark, _, .inr rfl, rfl⟩
  split
  · exact ⟨basicMark, _, .inl rfl, rfl⟩
  split
  · exact ⟨literalMark, _, .inr rfl, rfl⟩
  split
  · exact ⟨basicMark, _, .inl rfl, rfl⟩
  · exact ⟨basicMark, _, .inl rfl, rfl⟩

/-! ## Keys -/

/-- Is the key written without quotes? -/
def isBareKey (key : Word) : Bool := !key.isEmpty && key.all isBare

theorem writeKey_bare (hbare : isBareKey text = true) : writeKey text = text := by
  rw [isBareKey] at hbare
  rw [writeKey, if_pos hbare]

theorem exists_writeKey_eq (hquoted : isBareKey text = false) :
    ∃ mark body, (mark = basicMark ∨ mark = literalMark) ∧ writeKey text = mark :: body := by
  rw [isBareKey] at hquoted
  rw [writeKey, hquoted, if_neg Bool.false_ne_true]
  split
  · exact ⟨basicMark, _, .inl rfl, rfl⟩
  split
  · exact ⟨literalMark, _, .inr rfl, rfl⟩
  · exact ⟨basicMark, _, .inl rfl, rfl⟩

/-- A key that is not bare is read back. -/
theorem readOneLine?_writeKey (hquoted : isBareKey text = false) (rest : Word) :
    readOneLine? (writeKey text ++ rest) = some (text, rest) := by
  rw [isBareKey] at hquoted
  rw [writeKey, hquoted, if_neg Bool.false_ne_true]
  split
  · exact readOneLine?_basicLine text rest
  split
  · rename_i hsingle
    rw [Bool.and_eq_true, Bool.not_eq_true'] at hsingle
    exact readOneLine?_literal (by simpa using hsingle.2) hsingle.1 rest
  · exact readOneLine?_basicLine text rest

end PlantGrowth.Toml.Quoted
