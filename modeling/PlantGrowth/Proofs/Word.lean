import Mathlib.Data.List.Lex
import Mathlib.Tactic.SplitIfs
import PlantGrowth.Word

/-!
# Words as bytes

A symbol takes one to four bytes in UTF-8. Of two symbols, the one before the other has the smaller
byte at the first place where their bytes differ, and neither begins with the bytes of the other. So
words are in the same order as their bytes, whatever the lengths of the symbols in them.
-/

namespace PlantGrowth

/-- The bytes of a word in UTF-8. -/
def Word.bytes (word : Word) : List UInt8 := word.flatMap String.utf8EncodeChar

namespace Symbol

theorem cons_byte_lt_cons_iff {small large : Nat} (hsmall : small < 256) (hlarge : large < 256)
    {rest others : List UInt8} :
    UInt8.ofNat small :: rest < UInt8.ofNat large :: others ↔
      small < large ∨ small = large ∧ rest < others := by
  rw [List.cons_lt_cons_iff, UInt8.lt_iff_toNat_lt, ← UInt8.toNat_inj,
    UInt8.toNat_ofNat_of_lt' hsmall, UInt8.toNat_ofNat_of_lt' hlarge]

/-- Numbers are in the order of their digits to the base 64, the first of four being unbounded. -/
theorem digits_lt_of_lt {small large : Nat} (hless : small < large) :
    small / 262144 < large / 262144 ∨ small / 262144 = large / 262144 ∧
      (small / 4096 % 64 < large / 4096 % 64 ∨ small / 4096 % 64 = large / 4096 % 64 ∧
        (small / 64 % 64 < large / 64 % 64 ∨ small / 64 % 64 = large / 64 % 64 ∧
          small % 64 < large % 64)) := by
  have hfirst : small / 262144 ≤ large / 262144 := Nat.div_le_div_right hless.le
  have hsecond : small / 4096 ≤ large / 4096 := Nat.div_le_div_right hless.le
  have hthird : small / 64 ≤ large / 64 := Nat.div_le_div_right hless.le
  rcases hfirst.lt_or_eq with hlt | hfirst
  · exact Or.inl hlt
  refine Or.inr ⟨hfirst, ?_⟩
  rcases hsecond.lt_or_eq with hlt | hsecond
  · left
    omega
  refine Or.inr ⟨congrArg (· % 64) hsecond, ?_⟩
  rcases hthird.lt_or_eq with hlt | hthird
  · left
    omega
  exact Or.inr ⟨congrArg (· % 64) hthird, by omega⟩

/-- The first byte tells the number of bytes. If it is the same, all bytes but the first hold six bits
of the code point each. -/
theorem bytes_lt_of_before {first second : Char} (hbefore : before first second = true)
    (rest others : List UInt8) :
    String.utf8EncodeChar first ++ rest < String.utf8EncodeChar second ++ others := by
  have hless : first.val.toNat < second.val.toNat := of_decide_eq_true hbefore
  have hrange : second.val.toNat < 1114112 := by
    rcases second.valid with hlow | ⟨-, hhigh⟩
    · exact hlow.trans (by decide)
    · exact hhigh
  have hdigits := digits_lt_of_lt hless
  simp only [String.utf8EncodeChar]
  split_ifs <;> simp only [List.cons_append, List.nil_append] <;>
    simp (disch := omega) only [cons_byte_lt_cons_iff, Nat.mod_eq_of_lt] <;> omega

end Symbol

namespace Word

theorem bytes_lt_of_before {first second : Word} (hbefore : before first second = true) :
    first.bytes < second.bytes := by
  induction first generalizing second with
  | nil =>
    cases second with
    | nil => cases hbefore
    | cons symbol rest =>
      cases hsymbol : String.utf8EncodeChar symbol with
      | nil => exact absurd hsymbol String.utf8EncodeChar_ne_nil
      | cons byte others =>
        rw [bytes, bytes, List.flatMap_cons, hsymbol]
        exact List.nil_lt_cons _ _
  | cons symbol rest ih =>
    cases second with
    | nil => cases hbefore
    | cons other others =>
      rw [before] at hbefore
      rw [bytes, bytes, List.flatMap_cons, List.flatMap_cons]
      split at hbefore
      · rename_i hahead
        exact Symbol.bytes_lt_of_before hahead _ _
      · rename_i hnotBefore
        split at hbefore
        · cases hbefore
        · rename_i hnotAfter
          obtain rfl := Symbol.eq_of_not_before (by simpa using hnotBefore) (by simpa using hnotAfter)
          exact List.append_left_lt (ih hbefore)

/-- Words are listed in the order of their bytes. -/
theorem bytes_lt_iff {first second : Word} :
    first.bytes < second.bytes ↔ before first second = true := by
  constructor
  · intro hless
    by_contra hnotBefore
    rw [Bool.not_eq_true] at hnotBefore
    cases hafter : before second first with
    | true => exact List.lt_asymm hless (bytes_lt_of_before hafter)
    | false =>
      obtain rfl := eq_of_not_before hnotBefore hafter
      exact List.lt_irrefl _ hless
  · exact bytes_lt_of_before

end Word

end PlantGrowth
