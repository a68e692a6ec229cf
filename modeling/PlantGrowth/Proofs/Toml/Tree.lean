import Mathlib.Data.List.Forall2
import PlantGrowth.Proofs.Number.Packing
import PlantGrowth.Toml.Value

/-!
# Trees up to the order of entries

A table means its keys and what they hold, so trees count as the same when their tables have the
same entries in some order. Decoders of text, numbers, arrays, records and variants give the same
content on all trees that are the same as the encoded one.
-/

namespace PlantGrowth.Toml

namespace Value

/-- A value without parts. -/
def isAtom : Value → Bool
  | .array _ | .table _ => false
  | _ => true

/-- Trees that differ at most in the order of the entries of their tables. -/
inductive Same : Value → Value → Prop
  | refl (value : Value) : Same value value
  | array {elements others : List Value} :
    List.Forall₂ Same elements others → Same (.array elements) (.array others)
  | table {entries others : Entries} :
    (entries.map Prod.fst).Perm (others.map Prod.fst) →
    (∀ key value other, (key, value) ∈ entries → (key, other) ∈ others → Same value other) →
    Same (.table entries) (.table others)

/-- A decoder gives a content on all trees that are the same as the given one. -/
def Decodes {β : Type} (decode : Value → Option β) (value : Value) (content : β) : Prop :=
  ∀ {other : Value}, other.Same value → decode other = some content

variable {value other : Value} {entries others : Entries}

theorem Same.eq_of_isAtom (hsame : other.Same value) (hatom : value.isAtom = true) :
    other = value := by
  cases hsame with
  | refl => rfl
  | array | table => cases hatom

/-- What is the same as an array is an array with the same elements in the same order. -/
theorem Same.exists_elements {elements : List Value} (hsame : other.Same (.array elements)) :
    ∃ found, other = .array found ∧ List.Forall₂ Same found elements := by
  cases hsame with
  | refl => exact ⟨elements, rfl, List.forall₂_same.2 fun value _ ↦ .refl value⟩
  | array helements => exact ⟨_, rfl, helements⟩

theorem Same.eq_ofFloats {numbers : List Float32} (hsame : other.Same (ofFloats numbers)) :
    other = ofFloats numbers := by
  obtain ⟨found, rfl, hfound⟩ := hsame.exists_elements
  have hequal : List.Forall₂ Eq found (numbers.map ofFloat32) := by
    rw [List.forall₂_map_right_iff] at hfound ⊢
    exact hfound.imp fun value number hvalue ↦ hvalue.eq_of_isAtom rfl
  rw [List.forall₂_eq_eq_eq] at hequal
  rw [hequal, ofFloats]

/-- What is the same as a table is a table of the same keys. -/
theorem Same.exists_entries (hsame : other.Same (.table entries))
    (hkeys : (entries.map Prod.fst).Nodup) :
    ∃ found, other = .table found ∧ (found.map Prod.fst).Perm (entries.map Prod.fst) ∧
      ∀ key value content, (key, value) ∈ found → (key, content) ∈ entries → value.Same content := by
  cases hsame with
  | refl =>
    refine ⟨entries, rfl, List.Perm.refl _, ?_⟩
    intro key value content hvalue hcontent
    obtain rfl : value = content :=
      congrArg Prod.snd (List.inj_on_of_nodup_map hkeys hvalue hcontent rfl)
    exact .refl value
  | table hperm hvalues => exact ⟨_, rfl, hperm, hvalues⟩

/-! ## Look-up -/

theorem lookup_eq_some_of_mem {key : Word} (hkeys : (entries.map Prod.fst).Nodup)
    (hmem : (key, value) ∈ entries) : entries.lookup key = some value := by
  cases hlookup : entries.lookup key with
  | none =>
    have habsent := List.lookup_eq_none_iff.1 hlookup _ hmem
    simp at habsent
  | some found =>
    obtain ⟨before, after, rfl, -⟩ := List.lookup_eq_some_iff.1 hlookup
    have hfound : (key, found) ∈ before ++ (key, found) :: after := by simp
    exact congrArg some (congrArg Prod.snd (List.inj_on_of_nodup_map hkeys hfound hmem rfl))

theorem lookup_eq_none_of_notMem {β : Type} {found : List (Word × β)} {key : Word}
    (habsent : key ∉ found.map Prod.fst) : found.lookup key = none := by
  rw [List.lookup_eq_none_iff]
  intro entry hentry
  rw [bne_iff_ne]
  rintro rfl
  exact habsent (List.mem_map_of_mem hentry)

/-- What a table holds under a key is found in every table that is the same. -/
theorem exists_lookup {found : Entries} {key : Word} {content : Value}
    (hkeys : (entries.map Prod.fst).Nodup)
    (hperm : (found.map Prod.fst).Perm (entries.map Prod.fst))
    (hvalues : ∀ key value content, (key, value) ∈ found → (key, content) ∈ entries →
      value.Same content)
    (hmem : (key, content) ∈ entries) :
    ∃ value, found.lookup key = some value ∧ value.Same content := by
  have hkey : key ∈ found.map Prod.fst := hperm.mem_iff.2 (List.mem_map_of_mem hmem)
  obtain ⟨⟨_, value⟩, hvalue, rfl⟩ := List.mem_map.1 hkey
  exact ⟨value, lookup_eq_some_of_mem (hperm.nodup_iff.2 hkeys) hvalue,
    hvalues _ _ _ hvalue hmem⟩

/-! ## Decoders -/

theorem decodes_text (text : Word) : Decodes text? (.string text) text := by
  intro other hsame
  rw [hsame.eq_of_isAtom rfl]
  rfl

theorem decodes_natural (number : ℕ) : Decodes natural? (.integer number) number := by
  intro other hsame
  rw [hsame.eq_of_isAtom rfl]
  simp [natural?]

@[simp]
theorem float32?_ofFloat32 (number : Float32) : (ofFloat32 number).float32? = some number := by
  rw [ofFloat32, float32?, Number.narrow_widen]

theorem decodes_float32 (number : Float32) : Decodes float32? (.ofFloat32 number) number := by
  intro other hsame
  rw [hsame.eq_of_isAtom rfl, float32?_ofFloat32]

/-- Elements are decoded one after another. -/
theorem decodes_elements {β : Type} {decode : Value → Option β} {encode : β → Value}
    (hdecodes : ∀ content, Decodes decode (encode content) content) {contents : List β}
    {found : List Value} (hfound : List.Forall₂ Same found (contents.map encode)) :
    found.mapM decode = some contents := by
  rw [List.forall₂_map_right_iff] at hfound
  induction hfound with
  | nil => rfl
  | cons hvalue _ ih => simp [hdecodes _ hvalue, ih]

theorem nodup_record {fields : List (String × Value)} (hnames : (fields.map Prod.fst).Nodup) :
    ((fields.map fun field ↦ (field.1.toList, field.2)).map Prod.fst).Nodup := by
  have hwords : ((fields.map Prod.fst).map String.toList).Nodup :=
    List.Nodup.map (fun first second hequal ↦ String.ext hequal) hnames
  rw [List.map_map] at hwords ⊢
  exact hwords

/-- The fields of a record are found in their order. -/
theorem Same.exists_fields {fields : List (String × Value)}
    (hsame : other.Same (.record fields)) (hnames : (fields.map Prod.fst).Nodup) :
    ∃ values, other.fields? (fields.map fun field ↦ field.1.toList) = some values ∧
      List.Forall₂ Same values (fields.map Prod.snd) := by
  have hkeys := nodup_record hnames
  obtain ⟨found, rfl, hperm, hvalues⟩ := hsame.exists_entries hkeys
  have hlookups (part : List (String × Value)) (hpart : part ⊆ fields) :
      ∃ values, (part.map fun field ↦ field.1.toList).mapM (fun name ↦ found.lookup name) =
        some values ∧ List.Forall₂ Same values (part.map Prod.snd) := by
    induction part with
    | nil => exact ⟨[], rfl, .nil⟩
    | cons field rest ih =>
      obtain ⟨hfield, hrest⟩ := List.cons_subset.1 hpart
      obtain ⟨values, hfound, hmatch⟩ := ih hrest
      obtain ⟨value, hlookup, hvalue⟩ := exists_lookup hkeys hperm hvalues
        (List.mem_map.2 ⟨field, hfield, rfl⟩)
      refine ⟨value :: values, ?_, .cons hvalue hmatch⟩
      simp [hlookup, hfound]
  exact hlookups fields (List.Subset.refl fields)

/-- A record that is the same as an encoded one has no entries beyond its fields. -/
theorem Same.exactFields?_eq {fields : List (String × Value)}
    (hsame : other.Same (.record fields)) (hnames : (fields.map Prod.fst).Nodup) :
    other.exactFields? (fields.map fun field ↦ field.1.toList) =
      other.fields? (fields.map fun field ↦ field.1.toList) := by
  obtain ⟨found, rfl, hperm, -⟩ := hsame.exists_entries (nodup_record hnames)
  have hknown : (found.all fun entry ↦
      (fields.map fun field ↦ field.1.toList).contains entry.1) = true := by
    rw [List.all_eq_true]
    intro entry hentry
    have hkey := hperm.mem_iff.1 (List.mem_map_of_mem hentry)
    rw [List.map_map] at hkey
    rw [List.contains_iff_mem]
    exact hkey
  rw [exactFields?, if_pos hknown]

/-- A variant carries the same under its name. -/
theorem Same.exists_variant {name : String} {carried : Value}
    (hsame : other.Same (.record [(name, carried)])) :
    ∃ content, other.variant? = some (name.toList, some content) ∧ content.Same carried := by
  obtain ⟨found, rfl, hperm, hvalues⟩ := hsame.exists_entries (by simp)
  have hkeys : found.map Prod.fst = [name.toList] := List.perm_singleton.1 hperm
  obtain ⟨⟨_, content⟩, rfl, rfl⟩ := List.map_eq_singleton_iff.1 hkeys
  exact ⟨content, rfl, hvalues _ _ _ (List.mem_singleton_self _) (List.mem_singleton_self _)⟩

end Value

end PlantGrowth.Toml
