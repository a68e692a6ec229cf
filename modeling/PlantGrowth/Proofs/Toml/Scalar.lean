import PlantGrowth.Proofs.Number.Division
import PlantGrowth.Proofs.Toml.Digits

/-!
# Written numbers are read back

An integer and the positional text of a float are runs of digits, the latter with a point, behind a
minus where the number is negative. No such text is a date or a time, and reading takes it for the
number that it was written for: integers exactly, floats because the digits of a shortest decimal
lie in the rounding interval of the float.
-/

namespace PlantGrowth.Toml.Scalar

open Number Float.Model UnpackedFloat

/-! ## Texts of numbers -/

/-- Digits, and possibly points among them. -/
def Unsigned (text : Word) : Prop := ∀ symbol ∈ text, symbol.isDigit = true ∨ symbol = '.'

/-- A text behind its sign. -/
def signed (negative : Bool) (text : Word) : Word := if negative then '-' :: text else text

variable {negative : Bool} {text before after : Word} {symbol : Char}

theorem AllDigits.unsigned (hdigits : AllDigits text) : Unsigned text :=
  fun symbol hsymbol ↦ .inl (hdigits symbol hsymbol)

theorem unsigned_append_point (hbefore : AllDigits before) (hafter : AllDigits after) :
    Unsigned (before ++ '.' :: after) := by
  intro symbol hsymbol
  rcases List.mem_append.1 hsymbol with hwhole | hrest
  · exact .inl (hbefore symbol hwhole)
  · rcases List.mem_cons.1 hrest with rfl | hfraction
    · exact .inr rfl
    · exact .inl (hafter symbol hfraction)

theorem AllDigits.notMem (hdigits : AllDigits text) (hnoDigit : symbol.isDigit = false) :
    symbol ∉ text := by
  intro hsymbol
  simp [hdigits symbol hsymbol] at hnoDigit

theorem Unsigned.notMem (hunsigned : Unsigned text) (hnoDigit : symbol.isDigit = false)
    (hnoPoint : symbol ≠ '.') : symbol ∉ text := by
  intro hsymbol
  rcases hunsigned symbol hsymbol with hdigit | hpoint
  · simp [hdigit] at hnoDigit
  · exact hnoPoint hpoint

theorem Unsigned.notMem_signed (hunsigned : Unsigned text) (hnoDigit : symbol.isDigit = false)
    (hnoPoint : symbol ≠ '.') (hnoSign : symbol ≠ '-') : symbol ∉ signed negative text := by
  rw [signed]
  split
  · exact List.not_mem_cons_of_ne_of_not_mem hnoSign (hunsigned.notMem hnoDigit hnoPoint)
  · exact hunsigned.notMem hnoDigit hnoPoint

theorem Unsigned.all_isTokenSymbol (hunsigned : Unsigned text) :
    (signed negative text).all isTokenSymbol = true := by
  rw [List.all_eq_true]
  intro symbol hsymbol
  have hsign : symbol = '-' ∨ symbol ∈ text := by
    rw [signed] at hsymbol
    split at hsymbol
    · exact List.mem_cons.1 hsymbol
    · exact .inr hsymbol
  rcases hsign with rfl | hmem
  · rfl
  · rcases hunsigned symbol hmem with hdigit | rfl
    · simp [isTokenSymbol, Char.isAlphanum, hdigit]
    · rfl

theorem splitSign_signed (hunsigned : Unsigned text) :
    splitSign (signed negative text) = (negative, text) := by
  cases negative with
  | true => rfl
  | false =>
    rw [signed, if_neg Bool.false_ne_true, splitSign.eq_def]
    split
    · exact absurd (List.mem_cons_self) (hunsigned.notMem rfl (by decide))
    · exact absurd (List.mem_cons_self) (hunsigned.notMem rfl (by decide))
    · rfl

/-! ## Dates and times -/

theorem isDate_eq_true (hdate : isDate text = true) : text[4]? = some '-' := by
  rw [isDate.eq_def] at hdate
  split at hdate
  · rfl
  · cases hdate

theorem splitAt_fst_subset (test : Char → Bool) (text : Word) : (splitAt test text).1 ⊆ text := by
  rw [splitAt]
  split
  · exact List.Subset.refl text
  · exact (List.takeWhile_prefix _).subset

theorem isTime_eq_true (htime : isTime text = true) : ':' ∈ text := by
  have hclock {clock : Word} (hclock : isClock clock = true) : ':' ∈ clock := by
    rw [isClock.eq_def] at hclock
    split at hclock
    · simp
    · cases hclock
  have hsubset := splitAt_fst_subset (· == '.') text
  rw [isTime] at htime
  split at htime
  · rename_i clock hsplit
    rw [hsplit] at hsubset
    exact hsubset (hclock htime)
  · rename_i clock fraction hsplit
    rw [hsplit] at hsubset
    rw [Bool.and_eq_true, Bool.and_eq_true] at htime
    exact hsubset (hclock htime.1.1)

theorem Unsigned.getElem?_signed_ne (hunsigned : Unsigned text) :
    (signed negative text)[4]? ≠ some '-' := by
  intro hsign
  have hmem : '-' ∈ text := by
    cases negative with
    | true => exact List.mem_of_getElem? hsign
    | false => exact List.mem_of_getElem? hsign
  exact hunsigned.notMem rfl (by decide) hmem

theorem Unsigned.isDate_signed (hunsigned : Unsigned text) :
    isDate (signed negative text) = false := by
  rw [Bool.eq_false_iff]
  intro hdate
  exact hunsigned.getElem?_signed_ne (isDate_eq_true hdate)

/-- Neither a sign in the middle nor a colon stands in the text of a number. -/
theorem Unsigned.isDatetime_signed (hunsigned : Unsigned text) :
    isDatetime (signed negative text) = false := by
  have htime : isTime (signed negative text) = false := by
    rw [Bool.eq_false_iff]
    intro htime
    exact hunsigned.notMem_signed rfl (by decide) (by decide) (isTime_eq_true htime)
  have hstart : isDate ((signed negative text).take 10) = false := by
    rw [Bool.eq_false_iff]
    intro hdate
    have hsign := isDate_eq_true hdate
    rw [List.getElem?_take_of_lt (by decide)] at hsign
    exact hunsigned.getElem?_signed_ne hsign
  rw [isDatetime, hunsigned.isDate_signed, htime, hstart]
  rfl

/-- The text of a number is read as an integer or else as a float. -/
theorem Unsigned.read?_signed (hunsigned : Unsigned text) :
    read? (signed negative text) =
      match integer? (signed negative text) with
      | some number => some (.integer number)
      | none => (float? (signed negative text)).map .float := by
  have hword {word : Word} {letter : Char} (hletter : letter ∈ word)
      (hnoDigit : letter.isDigit = false) (hnoPoint : letter ≠ '.') (hnoSign : letter ≠ '-') :
      (signed negative text == word) = false := by
    rw [beq_eq_false_iff_ne]
    rintro rfl
    exact hunsigned.notMem_signed hnoDigit hnoPoint hnoSign hletter
  rw [read?, @hword _ 'e' (by decide) rfl (by decide) (by decide),
    @hword _ 'e' (by decide) rfl (by decide) (by decide), hunsigned.isDatetime_signed]
  rfl

/-! ## Integers -/

theorem isDigitOf_ten (hdigit : symbol.isDigit = true) : isDigitOf 10 symbol = true := by
  have hvalue : digitValue symbol < 10 := by
    rw [digitValue_of_isDigit hdigit]
    have hlast : symbol.toNat ≤ '9'.toNat := by
      simp only [Char.isDigit, Bool.and_eq_true, decide_eq_true_eq] at hdigit
      exact UInt32.le_iff_toNat_le.1 hdigit.2
    have hnine : '9'.toNat = 57 := rfl
    have hzero : '0'.toNat = 48 := rfl
    omega
  simp [isDigitOf, Char.isAlphanum, hdigit, hvalue]

theorem ungroup_digits (hdigits : AllDigits text) (hsome : text ≠ []) (afterDigit : Bool) :
    ungroup 10 afterDigit text = some text := by
  have hafter {rest : Word} (hrest : AllDigits rest) : ungroup 10 true rest = some rest := by
    induction rest with
    | nil => rfl
    | cons digit rest ih =>
      obtain ⟨hdigit, hrest⟩ := List.forall_mem_cons.1 hrest
      rw [ungroup, if_pos (isDigitOf_ten hdigit), ih hrest]
      rfl
  cases text with
  | nil => exact absurd rfl hsome
  | cons digit rest =>
    obtain ⟨hdigit, hrest⟩ := List.forall_mem_cons.1 hdigits
    rw [ungroup, if_pos (isDigitOf_ten hdigit), hafter hrest]
    rfl

/-- A point is not part of a group of digits. -/
theorem ungroup_eq_none (hpoint : '.' ∈ text) (afterDigit : Bool) :
    ungroup 10 afterDigit text = none := by
  induction text generalizing afterDigit with
  | nil => cases hpoint
  | cons symbol rest ih =>
    rcases List.mem_cons.1 hpoint with rfl | hrest
    · rfl
    · rw [ungroup]
      split
      · rw [ih hrest]
        rfl
      · split
        · exact ih hrest _
        · rfl

theorem digits_ne_nil (number : ℕ) : digits number ≠ [] := Nat.toDigits_ne_nil

theorem wholeDigits?_digits (number : ℕ) : wholeDigits? (digits number) = some (digits number) := by
  rw [wholeDigits?, ungroup_digits (allDigits_digits number) (digits_ne_nil number)]
  split
  · rename_i digit rest hleading
    have hdigits : digits number = '0' :: digit :: rest := Option.some.inj hleading
    rcases Nat.eq_zero_or_pos number with rfl | hpos
    · cases hdigits
    · exact absurd (by rw [hdigits]; rfl) (head?_digits_ne_zero hpos)
  · rfl

theorem Unsigned.integer?_signed (hunsigned : Unsigned text) :
    integer? (signed negative text) = (wholeDigits? text).bind fun digits ↦
      inRange? (if negative then -(numberOf 10 digits : ℤ) else numberOf 10 digits) := by
  have hletter {letter : Char} {rest : Word} (hnoDigit : letter.isDigit = false)
      (hnoPoint : letter ≠ '.') (hnoSign : letter ≠ '-') :
      signed negative text ≠ '0' :: letter :: rest := by
    intro hequal
    have hmem : letter ∈ signed negative text := by rw [hequal]; simp
    exact hunsigned.notMem_signed hnoDigit hnoPoint hnoSign hmem
  rw [integer?.eq_def]
  split
  · rename_i hequal
    exact absurd hequal (hletter rfl (by decide) (by decide))
  · rename_i hequal
    exact absurd hequal (hletter rfl (by decide) (by decide))
  · rename_i hequal
    exact absurd hequal (hletter rfl (by decide) (by decide))
  · rw [splitSign_signed hunsigned]

theorem toString_toList (number : ℤ) :
    (toString number).toList = signed (number < 0) (digits number.natAbs) := by
  cases number with
  | ofNat number => simp [signed, digits, toString, Int.repr, Nat.repr]
  | negSucc number => simp [signed, digits, toString, Int.repr, Nat.repr]

/-! ## Tokens -/

/-- A text of letters, digits and signs that is read as a value and begins no date. -/
structure Token (text : Word) (value : Value) : Prop where
  symbols : text.all isTokenSymbol = true
  notDate : isDate text = false
  read : read? text = some value

theorem Token.ne_nil {value : Value} (htoken : Token text value) : text ≠ [] := by
  rintro rfl
  have hread := htoken.read
  simp [read?, isDatetime, isDate, isTime, splitAt, isClock, integer?, splitSign, wholeDigits?,
    ungroup, float?, special?, magnitude?] at hread

theorem token_integer {number : ℤ} (hrange : Value.integerInRange number = true) :
    Token (toString number).toList (.integer number) := by
  have hunsigned := (allDigits_digits number.natAbs).unsigned
  rw [toString_toList]
  refine ⟨hunsigned.all_isTokenSymbol, hunsigned.isDate_signed, ?_⟩
  have hvalue : (if (decide (number < 0)) = true then -(number.natAbs : ℤ) else number.natAbs) =
      number := by
    split <;> rename_i hsign <;> simp only [decide_eq_true_eq] at hsign <;> omega
  have hinteger : integer? (signed (number < 0) (digits number.natAbs)) = some number := by
    rw [hunsigned.integer?_signed, wholeDigits?_digits, Option.bind_some, numberOf_digits, hvalue,
      inRange?, if_pos hrange]
  rw [hunsigned.read?_signed, hinteger]

/-! ## Floats -/

theorem splitAt_eq_none {test : Char → Bool} (hnone : ∀ symbol ∈ text, test symbol = false) :
    splitAt test text = (text, none) := by
  have hall : (text.dropWhile fun symbol ↦ !test symbol) = [] := by
    rw [List.dropWhile_eq_nil_iff]
    intro symbol hsymbol
    simp [hnone symbol hsymbol]
  rw [splitAt, hall]

theorem splitAt_point (hbefore : AllDigits before) (after : Word) :
    splitAt (· == '.') (before ++ '.' :: after) = (before, some after) := by
  have hdigit : ∀ symbol ∈ before, (!(symbol == '.')) = true := by
    intro symbol hsymbol
    rw [Bool.not_eq_true', beq_eq_false_iff_ne]
    rintro rfl
    exact hbefore.notMem rfl hsymbol
  rw [splitAt, List.dropWhile_append_of_pos hdigit, List.takeWhile_append_of_pos hdigit]
  simp

/-- The digits around a point make up a coefficient, those behind it count as places. -/
theorem magnitude?_point (whole : ℕ) (hafter : AllDigits after) (hsome : after ≠ []) :
    magnitude? (digits whole ++ '.' :: after) =
      some (Float.ofScientific (numberOf 10 (digits whole ++ after)) true after.length) := by
  have hunsigned := unsigned_append_point (allDigits_digits whole) hafter
  have hexponent : splitAt (fun symbol ↦ symbol == 'e' || symbol == 'E')
      (digits whole ++ '.' :: after) = (digits whole ++ '.' :: after, none) := by
    apply splitAt_eq_none
    intro symbol hsymbol
    rw [Bool.or_eq_false_iff, beq_eq_false_iff_ne, beq_eq_false_iff_ne]
    constructor <;> rintro rfl <;> exact hunsigned.notMem rfl (by decide) hsymbol
  have hnearest (coefficient : ℕ) : nearest coefficient (0 - (after.length : ℤ)) =
      Float.ofScientific coefficient true after.length := by
    have hpos := List.length_pos_iff.2 hsome
    have hcount : (-((0 : ℤ) - after.length)).toNat = after.length := by omega
    rw [nearest, if_pos (by omega), hcount]
  simp only [magnitude?, hexponent, splitAt_point (allDigits_digits whole) after,
    wholeDigits?_digits, Option.elim, ungroup_digits hafter hsome, Option.isNone_some,
    Bool.and_false]
  exact congrArg some (hnearest _)

theorem float?_point (whole : ℕ) (hafter : AllDigits after) (hsome : after ≠ []) {number : Float}
    (hnumber : Float.ofScientific (numberOf 10 (digits whole ++ after)) true after.length = number)
    (hfinite : number.isInf = false) :
    float? (signed negative (digits whole ++ '.' :: after)) =
      some (if negative then -number else number) := by
  have hunsigned := unsigned_append_point (allDigits_digits whole) hafter
  have hspecial : special? (digits whole ++ '.' :: after) = none := by
    have hletter : 'n' ∉ digits whole ++ '.' :: after := hunsigned.notMem rfl (by decide)
    rw [special?.eq_def]
    split
    · rename_i hequal
      simp [hequal] at hletter
    · rename_i hequal
      simp [hequal] at hletter
    · rfl
  rw [float?, splitSign_signed hunsigned]
  simp only [hspecial, magnitude?_point whole hafter hsome, hnumber]
  cases negative <;> simp [hfinite]

theorem token_point (whole : ℕ) (hafter : AllDigits after) (hsome : after ≠ []) {number : Float}
    (hnumber : Float.ofScientific (numberOf 10 (digits whole ++ after)) true after.length = number)
    (hfinite : number.isInf = false) :
    Token (signed negative (digits whole ++ '.' :: after))
      (.float (if negative then -number else number)) := by
  have hunsigned := unsigned_append_point (allDigits_digits whole) hafter
  refine ⟨hunsigned.all_isTokenSymbol, hunsigned.isDate_signed, ?_⟩
  have hinteger : integer? (signed negative (digits whole ++ '.' :: after)) = none := by
    rw [hunsigned.integer?_signed, wholeDigits?, ungroup_eq_none (by simp)]
    rfl
  rw [hunsigned.read?_signed, hinteger, float?_point whole hafter hsome hnumber hfinite]
  rfl

/-- A decimal is written with at least one digit behind the point. -/
theorem exists_text_eq (decimal : Decimal) :
    ∃ (whole : ℕ) (fraction : Word), decimal.text documentStyle = digits whole ++ '.' :: fraction ∧
      AllDigits fraction ∧ fraction ≠ [] ∧
      (numberOf 10 (digits whole ++ fraction) : ℚ) / 10 ^ fraction.length = decimal.value := by
  have hvalue := value_parts decimal
  obtain ⟨whole, hwhole⟩ : ∃ whole, decimal.wholePart = digits whole := ⟨_, rfl⟩
  rw [hwhole] at hvalue
  cases hfraction : decimal.fractionPart with
  | nil =>
    refine ⟨whole, ['0'], ?_, by simp [AllDigits], by simp, ?_⟩
    · rw [Decimal.text, hfraction, hwhole]
      rfl
    · rw [numberOf_div_pow, ← hvalue, hfraction]
      exact congrArg _ (fractionValue_append_zeros [] 1)
  | cons digit rest =>
    refine ⟨whole, digit :: rest, ?_, hfraction ▸ allDigits_fractionPart decimal, by simp, ?_⟩
    · rw [Decimal.text, hfraction, hwhole]
    · rw [numberOf_div_pow, ← hvalue, hfraction]

theorem signText_append (sign : Sign) (text : Word) :
    signText sign ++ text = signed (sign == .negative) text := by
  cases sign <;> rfl

/-- The text of a normal number is read as that number. -/
theorem token_finite {mantissa : ℕ} {exponent : ℤ}
    (hnumber : Representable .binary64 mantissa exponent)
    (hnormal : 2 ^ Format.binary64.mantissaBitsWithoutImplicit ≤ mantissa) (sign : Sign) :
    Token (documentText (.ofModel (Float.Model.pack (.finite sign mantissa exponent hnumber.pos))))
      (.float (.ofModel (Float.Model.pack (.finite sign mantissa exponent hnumber.pos)))) := by
  have hunpack (sign : Sign) : (Float.Model.pack (.finite sign mantissa exponent hnumber.pos)).unpack =
      .finite sign mantissa exponent hnumber.pos := hnumber.unpack_pack sign
  obtain ⟨whole, fraction, htext, hdigits, hsome, hvalue⟩ :=
    exists_text_eq (shortest .binary64 mantissa exponent)
  have hrounds := shortest_roundsTo hnumber.pos .binary64 exponent
  rw [← hvalue] at hrounds
  have hread := ofScientific_eq hnumber hnormal (List.length_pos_iff.2 hsome) hrounds
  have hfinite : (Float.ofModel
      (Float.Model.pack (.finite .positive mantissa exponent hnumber.pos))).isInf = false := by
    change (Float.Model.pack _).unpack.isInf = false
    rw [hunpack]
    rfl
  have htoken := @token_point (sign == .negative) _ whole hdigits hsome _ hread hfinite
  rw [← htext, ← signText_append] at htoken
  have hnegative : -Float.ofModel (Float.Model.pack (.finite .positive mantissa exponent hnumber.pos)) =
      .ofModel (Float.Model.pack (.finite .negative mantissa exponent hnumber.pos)) := by
    change Float.ofModel (Float.Model.pack (Float.Model.pack _).unpack.neg) = _
    rw [hunpack]
    rfl
  have hdocument : documentText
      (.ofModel (Float.Model.pack (.finite sign mantissa exponent hnumber.pos))) =
        signText sign ++ (shortest .binary64 mantissa exponent).text documentStyle := by
    rw [documentText, hunpack]
    rfl
  rw [hdocument]
  cases sign with
  | positive => exact htoken
  | negative =>
    rw [hnegative] at htoken
    exact htoken

/-- What is written for a 32-bit number is read as the equal 64-bit one. -/
theorem token_widen (number : Float32) : Token (documentText (widen number)) (.float (widen number)) := by
  cases hunpack : number.toModel.unpack with
  | finite sign mantissa exponent hpos =>
    obtain ⟨hwidened, hwiden⟩ := unpack_widen hunpack
    have hfits := (representable_of_unpack (by decide) hunpack).fits
    rw [hwiden]
    exact token_finite hwidened (two_pow_le_spare hpos (hfits.trans (by decide))) sign
  | infinity sign =>
    have hwiden : widen number = .ofModel (Float.Model.pack (.infinity sign)) := by
      rw [widen, hunpack, convert]
    have htext : documentText (widen number) = signText sign ++ "inf".toList := by
      rw [hwiden]
      cases sign <;> rfl
    rw [htext, hwiden]
    cases sign <;> exact ⟨by decide, by decide, by rfl⟩
  | zero sign =>
    have hwiden : widen number = .ofModel (Float.Model.pack (.zero sign)) := by
      rw [widen, hunpack, convert]
    have htext : documentText (widen number) = signText sign ++ "0.0".toList := by
      rw [hwiden]
      cases sign <;> rfl
    rw [htext, hwiden]
    cases sign <;> exact ⟨by decide, by decide, by rfl⟩
  | notANumber =>
    have hwiden : widen number = .ofModel (Float.Model.pack .notANumber) := by
      rw [widen, hunpack, convert]
    have htext : documentText (widen number) = "nan".toList := by
      rw [hwiden]
      rfl
    rw [htext, hwiden]
    exact ⟨by decide, by decide, by rfl⟩

end PlantGrowth.Toml.Scalar
