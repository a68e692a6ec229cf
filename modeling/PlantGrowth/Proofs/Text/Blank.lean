import Mathlib.Data.List.TakeWhile
import PlantGrowth.Word

/-!
# Trimmed words

What trimming leaves of a word is the one part of it that neither begins nor ends with white space
and has nothing but white space around it.
-/

namespace PlantGrowth.Text

/-- A run of white space, which may be empty. -/
def Blank (word : Word) : Prop := ∀ symbol ∈ word, isBlank symbol = true

instance (word : Word) : Decidable (Blank word) :=
  decidable_of_iff (word.all isBlank = true) List.all_eq_true

/-- The word neither begins nor ends with white space. -/
structure Trimmed (word : Word) : Prop where
  head : ∀ symbol ∈ word.head?, isBlank symbol = false
  last : ∀ symbol ∈ word.getLast?, isBlank symbol = false

theorem trimmed_iff {word : Word} :
    Trimmed word ↔ (word.head?.all fun symbol ↦ !isBlank symbol) = true ∧
      (word.getLast?.all fun symbol ↦ !isBlank symbol) = true := by
  simp only [Option.all_eq_true, Bool.not_eq_true']
  exact ⟨fun htrimmed ↦ ⟨htrimmed.head, htrimmed.last⟩, fun hends ↦ ⟨hends.1, hends.2⟩⟩

instance (word : Word) : Decidable (Trimmed word) := decidable_of_iff' _ trimmed_iff

variable {word front core back : Word}

theorem trimmed_singleton {symbol : Char} : Trimmed [symbol] ↔ isBlank symbol = false := by
  constructor
  · intro htrimmed
    exact htrimmed.head symbol rfl
  · intro hsymbol
    have hends : ∀ other ∈ some symbol, isBlank other = false := by
      intro other hother
      rwa [← Option.some.inj hother]
    exact ⟨hends, hends⟩

/-! ## One end -/

theorem trimLeft_append (hfront : Blank front) (word : Word) :
    trimLeft (front ++ word) = trimLeft word :=
  List.dropWhile_append_of_pos hfront

theorem trimLeft_of_head (hhead : ∀ symbol ∈ word.head?, isBlank symbol = false) :
    trimLeft word = word := by
  cases word with
  | nil => rfl
  | cons symbol rest => simp [trimLeft, hhead symbol rfl]

theorem exists_trimLeft (word : Word) : ∃ front, Blank front ∧ word = front ++ trimLeft word :=
  ⟨word.takeWhile isBlank, fun _ ↦ List.mem_takeWhile_imp, List.takeWhile_append_dropWhile.symm⟩

theorem head?_trimLeft {symbol : Char} (hsymbol : symbol ∈ (trimLeft word).head?) :
    isBlank symbol = false := by
  have hhead := List.head?_dropWhile_not isBlank word
  rw [Option.mem_def, trimLeft] at hsymbol
  rwa [hsymbol] at hhead

theorem trimRight_eq (word : Word) : trimRight word = (trimLeft word.reverse).reverse := rfl

theorem trimRight_append (word : Word) (hback : Blank back) :
    trimRight (word ++ back) = trimRight word := by
  have hreverse : Blank back.reverse := fun symbol hsymbol ↦ hback symbol (List.mem_reverse.1 hsymbol)
  rw [trimRight_eq, trimRight_eq, List.reverse_append, trimLeft_append hreverse]

theorem trimRight_of_last (hlast : ∀ symbol ∈ word.getLast?, isBlank symbol = false) :
    trimRight word = word := by
  rw [trimRight_eq, trimLeft_of_head, List.reverse_reverse]
  rwa [List.head?_reverse]

theorem exists_trimRight (word : Word) : ∃ back, Blank back ∧ word = trimRight word ++ back := by
  obtain ⟨front, hfront, hreverse⟩ := exists_trimLeft word.reverse
  refine ⟨front.reverse, fun symbol hsymbol ↦ hfront symbol (List.mem_reverse.1 hsymbol), ?_⟩
  rw [trimRight_eq, ← List.reverse_append, ← hreverse, List.reverse_reverse]

theorem getLast?_trimRight {symbol : Char} (hsymbol : symbol ∈ (trimRight word).getLast?) :
    isBlank symbol = false := by
  rw [trimRight_eq, List.getLast?_reverse] at hsymbol
  exact head?_trimLeft hsymbol

/-! ## Both ends -/

theorem exists_trim (word : Word) :
    ∃ front back, Blank front ∧ Blank back ∧ word = front ++ trim word ++ back := by
  obtain ⟨front, hfront, hword⟩ := exists_trimLeft word
  obtain ⟨back, hback, hrest⟩ := exists_trimRight (trimLeft word)
  exact ⟨front, back, hfront, hback, by rw [List.append_assoc, trim, ← hrest, ← hword]⟩

theorem trimmed_trim (word : Word) : Trimmed (trim word) := by
  obtain ⟨back, -, hrest⟩ := exists_trimRight (trimLeft word)
  have hhead (symbol : Char) (hsymbol : symbol ∈ (trim word).head?) :
      symbol ∈ (trimLeft word).head? := by
    rw [hrest, List.head?_append]
    rw [Option.mem_def, trim] at hsymbol
    rw [hsymbol]
    rfl
  exact ⟨fun symbol hsymbol ↦ head?_trimLeft (hhead symbol hsymbol), fun _ ↦ getLast?_trimRight⟩

theorem trim_append (hfront : Blank front) (hcore : Trimmed core) (hback : Blank back) :
    trim (front ++ core ++ back) = core := by
  rw [List.append_assoc, trim, trimLeft_append hfront]
  cases core with
  | nil =>
    have hnothing : trimLeft back = [] := List.dropWhile_eq_nil_iff.2 hback
    rw [List.nil_append, hnothing]
    rfl
  | cons symbol rest =>
    have hhead : trimLeft (symbol :: rest ++ back) = symbol :: rest ++ back :=
      trimLeft_of_head fun other hother ↦ hcore.head other hother
    rw [hhead, trimRight_append _ hback, trimRight_of_last hcore.last]

theorem trim_eq_iff :
    trim word = core ↔
      Trimmed core ∧ ∃ front back, Blank front ∧ Blank back ∧ word = front ++ core ++ back := by
  constructor
  · intro htrim
    rw [← htrim]
    exact ⟨trimmed_trim word, exists_trim word⟩
  · intro hparts
    obtain ⟨hcore, front, back, hfront, hback, rfl⟩ := hparts
    exact trim_append hfront hcore hback

end PlantGrowth.Text
