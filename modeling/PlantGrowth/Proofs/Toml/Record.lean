import PlantGrowth.Proofs.Number.Sign
import PlantGrowth.Proofs.Toml.Tree

/-!
# Shapes of records and variants

What a decoder looks at. An open record ignores the entries beyond its fields, a closed one refuses
them, and both need every field. A variant needs one of its names. An encoding is faithful when it is
decoded again, up to the order of entries, into what it was made from.
-/

namespace PlantGrowth.Toml

namespace Value

variable {β γ : Type}

section Traversal

variable {elements : List β} {read : β → Option γ}

theorem mapM_congr {other : β → Option γ}
    (hagree : ∀ element ∈ elements, read element = other element) :
    elements.mapM read = elements.mapM other := by
  induction elements with
  | nil => rfl
  | cons element rest ih =>
    rw [List.mapM_cons, List.mapM_cons, hagree element List.mem_cons_self,
      ih fun element hmem ↦ hagree element (List.mem_cons_of_mem _ hmem)]

theorem mapM_eq_none {element : β} (hmem : element ∈ elements) (hread : read element = none) :
    elements.mapM read = none := by
  induction hmem with
  | head rest => rw [List.mapM_cons, hread]; rfl
  | tail first _ ih => rw [List.mapM_cons, ih]; cases read first <;> rfl

end Traversal

/-! ## Records -/

/-- Records without one of the fields, in a table or in an array. -/
inductive Incomplete (names : List String) : Value → Prop
  | table {entries : Entries} {name : String} : name ∈ names →
    entries.lookup name.toList = none → Incomplete names (.table entries)
  | array {elements : List Value} : elements.length < names.length →
    Incomplete names (.array elements)

/-- A decoder of records that depends on no entry of a table but the fields and needs all of them. -/
structure OpenRecord (names : List String) (decode : Value → Option β) : Prop where
  ignores : ∀ first second : Entries,
    (∀ name ∈ names, first.lookup name.toList = second.lookup name.toList) →
      decode (.table first) = decode (.table second)
  needs : ∀ value, Incomplete names value → decode value = none

/-- A decoder of records whose tables have the fields and no other entries. -/
structure ClosedRecord (names : List String) (decode : Value → Option β) : Prop where
  refuses : ∀ (entries : Entries) (key : Word), key ∈ entries.map Prod.fst →
    key ∉ names.map String.toList → decode (.table entries) = none
  needs : ∀ value, Incomplete names value → decode value = none

variable {names : List String} {decode : Value → Option β}

/-- An entry that is not one of the fields can stand anywhere. -/
theorem OpenRecord.insert (hrecord : OpenRecord names decode) {key : Word}
    (hkey : key ∉ names.map String.toList) (content : Value) (before after : Entries) :
    decode (.table (before ++ (key, content) :: after)) = decode (.table (before ++ after)) := by
  apply hrecord.ignores
  intro name hname
  have hdiffer : (name.toList == key) = false := by
    rw [beq_eq_false_iff_ne]
    rintro rfl
    exact hkey (List.mem_map_of_mem hname)
  rw [List.lookup_append, List.lookup_append, List.lookup_cons, hdiffer]

/-- What is made of the content of a record, and of nothing else, is as open as the record. -/
theorem OpenRecord.change (change : Option β → Option γ) (hnone : change none = none)
    (hrecord : OpenRecord names decode) : OpenRecord names fun value ↦ change (decode value) where
  ignores := by
    intro first second hagree
    exact congrArg change (hrecord.ignores first second hagree)
  needs := by
    intro value hvalue
    exact (congrArg change (hrecord.needs value hvalue)).trans hnone

/-- A record among others is as open as on its own. -/
theorem OpenRecord.element (hrecord : OpenRecord names decode) (before after : List Value) :
    OpenRecord names fun element ↦ (before ++ element :: after).mapM decode where
  ignores := by
    intro first second hagree
    simp only [List.mapM_append, List.mapM_cons, hrecord.ignores first second hagree]
  needs := by
    intro value hvalue
    exact mapM_eq_none (by simp) (hrecord.needs value hvalue)

theorem openRecord_fields? (names : List String) :
    OpenRecord names (fields? (names.map String.toList)) where
  ignores := by
    intro first second hagree
    apply mapM_congr
    intro key hkey
    obtain ⟨name, hname, rfl⟩ := List.mem_map.1 hkey
    exact hagree name hname
  needs := by
    intro value hvalue
    cases hvalue with
    | table hname habsent => exact mapM_eq_none (List.mem_map_of_mem hname) habsent
    | array hshort => rw [fields?, List.length_map, if_neg (by omega)]

/-- A decoder that begins with the fields of a record. -/
theorem openRecord_of_fields? (names : List String) (read : List Value → Option β) :
    OpenRecord names fun value ↦ (value.fields? (names.map String.toList)).bind read :=
  (openRecord_fields? names).change (fun fields ↦ fields.bind read) rfl

/-- A decoder that begins with the fields of a record without other entries. -/
theorem closedRecord_of_exactFields? (names : List String) (read : List Value → Option β) :
    ClosedRecord names fun value ↦
      (value.exactFields? (names.map String.toList)).bind read where
  refuses := by
    intro entries key hkey hother
    obtain ⟨entry, hentry, rfl⟩ := List.mem_map.1 hkey
    have hunknown : ¬(entries.all fun entry ↦ (names.map String.toList).contains entry.1) = true := by
      intro hknown
      exact hother (List.contains_iff_mem.1 (List.all_eq_true.1 hknown entry hentry))
    rw [exactFields?, if_neg hunknown, Option.bind_none]
  needs := by
    intro value hvalue
    have hfields := (openRecord_fields? names).needs value hvalue
    cases hvalue with
    | table => rw [exactFields?, hfields, ite_self, Option.bind_none]
    | array => exact congrArg (fun fields ↦ Option.bind fields read) hfields

/-! ## Variants -/

/-- A decoder of variants with these names and no others, each of which some content has. -/
structure Variants (names : List String) (encode : β → Value) (decode : Value → Option β) :
    Prop where
  refuses : ∀ value : Value, (∀ (name : Word) (carried : Option Value),
    value.variant? = some (name, carried) → name ∉ names.map String.toList) → decode value = none
  encoded : ∀ content, ∃ name ∈ names, ∃ carried,
    (encode content).variant? = some (name.toList, carried)
  named : ∀ name ∈ names, ∃ content carried,
    (encode content).variant? = some (name.toList, carried)

/-- A decoder that begins with the name of a variant and fails on other names. -/
theorem variant?_bind_eq_none {read : Word × Option Value → Option β}
    (hread : ∀ (name : Word) (carried : Option Value),
      name ∉ names.map String.toList → read (name, carried) = none)
    {value : Value} (hother : ∀ (name : Word) (carried : Option Value),
      value.variant? = some (name, carried) → name ∉ names.map String.toList) :
    value.variant?.bind read = none := by
  cases hvariant : value.variant? with
  | none => rfl
  | some found => exact hread found.1 found.2 (hother found.1 found.2 hvariant)

/-- No content is found under the name of none. -/
theorem find?_eq_none_of_name {contents : List γ} {nameOf : γ → Word} {known : List Word}
    {name : Word} (hknown : ∀ content ∈ contents, nameOf content ∈ known) (hother : name ∉ known) :
    (contents.find? fun content ↦ nameOf content == name) = none := by
  rw [List.find?_eq_none]
  intro content hcontent
  rw [beq_iff_eq]
  rintro rfl
  exact hother (hknown content hcontent)

/-- Contents that are nothing but their names. -/
theorem variants_of_names {contents : List β} {nameOf : β → Word}
    (hnames : contents.map nameOf = names.map String.toList)
    (hcontents : ∀ content, content ∈ contents) :
    Variants names (fun content ↦ .string (nameOf content)) fun value ↦
      value.variant?.bind fun found ↦
        (contents.find? fun content ↦ nameOf content == found.1).bind fun content ↦
          if carriesNothing found.2 then some content else none where
  refuses := by
    intro value
    refine variant?_bind_eq_none ?_
    intro name carried hother
    rw [← hnames] at hother
    rw [find?_eq_none_of_name (fun content ↦ List.mem_map_of_mem) hother, Option.bind_none]
  encoded := by
    intro content
    have hname : nameOf content ∈ names.map String.toList := by
      rw [← hnames]
      exact List.mem_map_of_mem (hcontents content)
    obtain ⟨name, hmem, hequal⟩ := List.mem_map.1 hname
    exact ⟨name, hmem, none, by rw [variant?, hequal]⟩
  named := by
    intro name hname
    have hword : name.toList ∈ contents.map nameOf := by
      rw [hnames]
      exact List.mem_map_of_mem hname
    obtain ⟨content, -, hequal⟩ := List.mem_map.1 hword
    exact ⟨content, none, by rw [variant?, hequal]⟩

/-! ## Faithful encodings -/

/-- Whatever is the same as an encoding is decoded into what was encoded, which is equal to itself as
long as its numbers are, and is encoded as before. Contents that are not equal cannot be confused. -/
structure Faithful [BEq β] (encode : β → Value) (decode : Value → Option β)
    (numbers : β → List Float32) : Prop where
  decodes : ∀ content (tree : Value), tree.Same (encode content) → decode tree = some content
  beq_self : ∀ content, (∀ number ∈ numbers content, number.isNaN = false) →
    (content == content) = true
  encode_again : ∀ content (tree : Value), tree.Same (encode content) →
    (decode tree).map encode = some (encode content)
  not_same : ∀ first second, (∀ number ∈ numbers first, number.isNaN = false) →
    (∀ number ∈ numbers second, number.isNaN = false) → (first == second) = false →
      ¬(encode first).Same (encode second)

theorem faithful_of_decodes [BEq β] {encode : β → Value} {numbers : β → List Float32}
    (hdecodes : ∀ content, Decodes decode (encode content) content)
    (hbeq : ∀ content, (content == content) = (numbers content).all fun number ↦ number == number) :
    Faithful encode decode numbers := by
  have hself (content : β) (hnumbers : ∀ number ∈ numbers content, number.isNaN = false) :
      (content == content) = true := by
    rw [hbeq, List.all_eq_true]
    intro number hnumber
    rw [Number.beq_self_eq, hnumbers number hnumber, Bool.not_false]
  refine ⟨fun content tree ↦ hdecodes content, hself, ?_, ?_⟩
  · intro content tree hsame
    rw [hdecodes content hsame, Option.map_some]
  · intro first second hfirst hsecond hdiffer hsame
    have hequal : some first = some second :=
      (hdecodes first (.refl _)).symm.trans (hdecodes second hsame)
    -- equal contents are equal to themselves, because there is no NaN among their numbers
    obtain rfl := Option.some.inj hequal
    rw [hself first hfirst] at hdiffer
    cases hdiffer

end Value

end PlantGrowth.Toml
