import Mathlib.Data.List.Basic
import Mathlib.Data.List.Dedup
import Mathlib.Data.List.Nodup
import PlantGrowth.Table

/-!
# Entries of tables

Which entries a table has after an insertion, and after many. A table is determined by the set of
its entries, and so by what it finds under each key. It can be rebuilt from its entries in any order,
and its keys can be exchanged for others. After any sequence of writes it finds the last value that
was written under a key.
-/

namespace PlantGrowth.Table

open Key

variable {κ β : Type} [Key κ]

theorem mem_place_iff {key : κ} {value : β} {entry : κ × β} {entries : List (κ × β)}
    (hascending : Ascending entries) :
    entry ∈ place key value entries ↔
      entry = (key, value) ∨ (entry ∈ entries ∧ entry.1 ≠ key) := by
  induction entries with
  | nil => simp [place]
  | cons head rest ih =>
    obtain ⟨other, held⟩ := head
    obtain ⟨hfirst, hrest⟩ := List.pairwise_cons.1 hascending
    unfold place
    split
    · rename_i hbefore
      have hne : other ≠ key := ne_of_before hbefore
      rw [List.mem_cons, ih hrest, List.mem_cons]
      grind
    · split
      · rename_i _ hafter
        have hlater : ∀ later ∈ (other, held) :: rest, later.1 ≠ key := by
          intro later hlater
          rcases List.mem_cons.1 hlater with rfl | hmem
          · exact (ne_of_before hafter).symm
          · exact (ne_of_before (before_trans hafter (hfirst later hmem))).symm
        grind
      · rename_i hbefore hafter
        have hsame : other = key := eq_of_not_before (by simpa using hbefore) (by simpa using hafter)
        have hlater : ∀ later ∈ rest, later.1 ≠ key := by
          intro later hmem
          rw [← hsame]
          exact (ne_of_before (hfirst later hmem)).symm
        grind

theorem mem_insert_iff {table : Table κ β} {key : κ} {value : β} {entry : κ × β} :
    entry ∈ (table.insert key value).entries ↔
      entry = (key, value) ∨ (entry ∈ table.entries ∧ entry.1 ≠ key) :=
  mem_place_iff table.ascending

theorem nodup_keys (table : Table κ β) : (table.entries.map Prod.fst).Nodup := by
  rw [List.Nodup, List.pairwise_map]
  exact table.ascending.imp ne_of_before

theorem nodup_entries (table : Table κ β) : table.entries.Nodup :=
  List.Nodup.of_map Prod.fst table.nodup_keys

/-- Associations of different keys all get into the table. -/
theorem mem_ofList_iff {associations : List (κ × β)} {entry : κ × β}
    (hkeys : (associations.map Prod.fst).Nodup) :
    entry ∈ (ofList associations).entries ↔ entry ∈ associations := by
  have hfold (table : Table κ β) :
      entry ∈ (associations.foldl (fun table entry ↦ table.insert entry.1 entry.2) table).entries ↔
        entry ∈ associations ∨
          (entry ∈ table.entries ∧ ∀ other ∈ associations, entry.1 ≠ other.1) := by
    induction associations generalizing table with
    | nil => simp
    | cons head rest ih =>
      rw [List.map_cons, List.nodup_cons] at hkeys
      have hhead : ∀ other ∈ rest, head.1 ≠ other.1 := fun other hother hsame ↦
        hkeys.1 (List.mem_map.2 ⟨other, hother, hsame.symm⟩)
      rw [List.foldl_cons, ih hkeys.2, mem_insert_iff]
      grind
  simpa [ofList, empty] using hfold empty

/-- Tables with the same entries are equal, for both list them in the one order of their keys. -/
theorem ext_mem {first second : Table κ β}
    (hsame : ∀ entry, entry ∈ first.entries ↔ entry ∈ second.entries) : first = second := by
  have hperm : first.entries.Perm second.entries := by
    rw [List.perm_ext_iff_of_nodup first.nodup_entries second.nodup_entries]
    exact hsame
  apply Table.ext
  apply hperm.eq_of_pairwise _ first.ascending second.ascending
  intro earlier later _ _ hbefore hafter
  exact absurd hafter (by simp [before_asymm hbefore])

theorem ext_get? {first second : Table κ β} (hsame : ∀ key, first.get? key = second.get? key) :
    first = second := by
  apply ext_mem
  intro entry
  rw [← get?_eq_some_iff, ← get?_eq_some_iff, hsame]

/-- A table can be rebuilt from its entries in any order. -/
theorem ofList_eq_of_perm {associations : List (κ × β)} {table : Table κ β}
    (hperm : associations.Perm table.entries) : ofList associations = table := by
  have hkeys : (associations.map Prod.fst).Nodup :=
    (hperm.map Prod.fst).nodup_iff.2 table.nodup_keys
  apply ext_mem
  intro entry
  rw [mem_ofList_iff hkeys, hperm.mem_iff]

/-! ## Other keys -/

variable {ι γ : Type} [Key ι]

/-- The same associations under other keys and with other values. -/
def rekey (change : κ → ι) (revalue : β → γ) (table : Table κ β) : Table ι γ :=
  ofList (table.entries.map fun entry ↦ (change entry.1, revalue entry.2))

theorem mem_rekey_iff {change : κ → ι} (hinjective : Function.Injective change) {revalue : β → γ}
    {table : Table κ β} {entry : ι × γ} :
    entry ∈ (table.rekey change revalue).entries ↔
      ∃ held ∈ table.entries, (change held.1, revalue held.2) = entry := by
  have hkeys : ((table.entries.map fun entry ↦ (change entry.1, revalue entry.2)).map
      Prod.fst).Nodup := by
    rw [List.map_map]
    have hmap := table.nodup_keys.map hinjective
    rwa [List.map_map] at hmap
  rw [rekey, mem_ofList_iff hkeys, List.mem_map]

/-- No two keys are exchanged for the same one, so each finds what it found before. -/
theorem get?_rekey {change : κ → ι} (hinjective : Function.Injective change) (revalue : β → γ)
    (table : Table κ β) (key : κ) :
    (table.rekey change revalue).get? (change key) = (table.get? key).map revalue := by
  ext value
  rw [get?_eq_some_iff, mem_rekey_iff hinjective, Option.map_eq_some_iff]
  constructor
  · intro hentry
    obtain ⟨held, hheld, heq⟩ := hentry
    obtain ⟨hkey, hvalue⟩ := Prod.mk.inj heq
    rw [← hinjective hkey]
    exact ⟨held.2, get?_eq_some_iff.2 hheld, hvalue⟩
  · intro hvalue
    obtain ⟨held, hheld, rfl⟩ := hvalue
    exact ⟨(key, held), get?_eq_some_iff.1 hheld, rfl⟩

/-! ## Single changes -/

theorem before_or_before {first second : κ} :
    (before first second || before second first) = true ↔ first ≠ second := by
  rw [Bool.or_eq_true]
  constructor
  · intro hapart
    rcases hapart with hbefore | hafter
    · exact ne_of_before hbefore
    · exact (ne_of_before hafter).symm
  · intro hne
    by_contra hnone
    rw [not_or, Bool.not_eq_true, Bool.not_eq_true] at hnone
    exact hne (eq_of_not_before hnone.1 hnone.2)

theorem mem_erase_iff {table : Table κ β} {key : κ} {entry : κ × β} :
    entry ∈ (table.erase key).entries ↔ entry ∈ table.entries ∧ entry.1 ≠ key := by
  rw [← before_or_before]
  exact List.mem_filter

theorem mem_keys_iff {table : Table κ β} {key : κ} :
    key ∈ table.keys ↔ (table.get? key).isSome := by
  simp [keys, Option.isSome_iff_exists, get?_eq_some_iff]

@[simp]
theorem keys_mapValues {γ : Type} (change : β → γ) (table : Table κ β) :
    (table.mapValues change).keys = table.keys :=
  List.map_map

variable [DecidableEq κ]

theorem get?_insert (table : Table κ β) (key other : κ) (value : β) :
    (table.insert key value).get? other = if other = key then some value else table.get? other := by
  ext held
  rw [get?_eq_some_iff, mem_insert_iff, ← get?_eq_some_iff]
  split
  · rename_i hsame
    simp [hsame, eq_comm]
  · rename_i hne
    simp [hne]

theorem get?_erase (table : Table κ β) (key other : κ) :
    (table.erase key).get? other = if other = key then none else table.get? other := by
  ext held
  rw [get?_eq_some_iff, mem_erase_iff, ← get?_eq_some_iff]
  split
  · rename_i hsame
    simp [hsame]
  · rename_i hne
    simp [hne]

/-! ## Many writes -/

/-- The value of the last write to a key. -/
def lastWritten? (writes : List (κ × β)) (key : κ) : Option β :=
  (writes.filter fun write ↦ write.1 = key).getLast?.map Prod.snd

omit [Key κ] in
theorem lastWritten?_cons (write : κ × β) (rest : List (κ × β)) (key : κ) :
    lastWritten? (write :: rest) key =
      (lastWritten? rest key).or (if write.1 = key then some write.2 else none) := by
  unfold lastWritten?
  by_cases hsame : write.1 = key
  · rw [List.filter_cons_of_pos (by simpa using hsame), List.getLast?_cons, if_pos hsame]
    cases (rest.filter fun write ↦ write.1 = key).getLast? <;> rfl
  · rw [List.filter_cons_of_neg (by simpa using hsame), if_neg hsame, Option.or_none]

omit [Key κ] in
theorem isSome_lastWritten? {writes : List (κ × β)} {key : κ} :
    (lastWritten? writes key).isSome ↔ key ∈ writes.map Prod.fst := by
  induction writes with
  | nil => simp [lastWritten?]
  | cons write rest ih =>
    rw [lastWritten?_cons, Option.isSome_or, Bool.or_eq_true, ih, List.map_cons, List.mem_cons]
    by_cases hsame : write.1 = key
    · simp [hsame]
    · simp [hsame, Ne.symm hsame]

theorem get?_foldl_insert (writes : List (κ × β)) (table : Table κ β) (key : κ) :
    (writes.foldl (fun table write ↦ table.insert write.1 write.2) table).get? key =
      (lastWritten? writes key).or (table.get? key) := by
  induction writes generalizing table with
  | nil => rfl
  | cons write rest ih =>
    rw [List.foldl_cons, ih, get?_insert, lastWritten?_cons, Option.or_assoc]
    by_cases hsame : write.1 = key
    · rw [if_pos hsame, if_pos hsame.symm]
      rfl
    · rw [if_neg hsame, if_neg (Ne.symm hsame)]
      rfl

theorem get?_ofList (writes : List (κ × β)) (key : κ) :
    (ofList writes).get? key = lastWritten? writes key := by
  rw [ofList, get?_foldl_insert]
  exact Option.or_none

/-- The keys are those that were there before and those that were written, each once. -/
theorem size_foldl_insert (writes : List (κ × β)) (table : Table κ β) :
    (writes.foldl (fun table write ↦ table.insert write.1 write.2) table).size =
      (table.keys ++ writes.map Prod.fst).dedup.length := by
  set written := writes.foldl (fun table write ↦ table.insert write.1 write.2) table with hwritten
  have hkeys : written.keys.Nodup := written.nodup_keys
  have hperm : written.keys.Perm (table.keys ++ writes.map Prod.fst).dedup := by
    rw [List.perm_ext_iff_of_nodup hkeys (List.nodup_dedup _)]
    intro key
    rw [List.mem_dedup, List.mem_append, mem_keys_iff, mem_keys_iff, ← isSome_lastWritten?,
      hwritten, get?_foldl_insert, Option.isSome_or, Bool.or_eq_true, or_comm]
  rw [← hperm.length_eq, size, keys, List.length_map]

/-! ## Comparison -/

variable [BEq β] {first second : List (κ × β)}

omit [Key κ] in
theorem cons_beq_cons_iff {head other : κ × β} {rest others : List (κ × β)} :
    (head :: rest == other :: others) = true ↔
      head.1 = other.1 ∧ (head.2 == other.2) = true ∧ (rest == others) = true := by
  have hpair : (head == other) = (head.1 == other.1 && head.2 == other.2) := rfl
  rw [List.cons_beq_cons, hpair]
  simp [and_assoc]

theorem find_beq_of_beq (hsame : (first == second) = true) (key : κ) :
    (find key first == find key second) = true := by
  induction first generalizing second with
  | nil =>
    cases second with
    | nil => rfl
    | cons => cases hsame
  | cons head rest ih =>
    cases second with
    | nil => cases hsame
    | cons other others =>
      obtain ⟨hkey, hvalue, hrest⟩ := cons_beq_cons_iff.1 hsame
      rw [find, find, ← hkey]
      split
      · exact ih hrest
      · split
        · rfl
        · exact hvalue

omit [Key κ] in
theorem beq_of_keys_eq (hkeys : first.map Prod.fst = second.map Prod.fst)
    (hvalues : ∀ key value other, (key, value) ∈ first → (key, other) ∈ second →
      (value == other) = true) : (first == second) = true := by
  induction first generalizing second with
  | nil =>
    cases second with
    | nil => rfl
    | cons => cases hkeys
  | cons head rest ih =>
    cases second with
    | nil => cases hkeys
    | cons other others =>
      obtain ⟨hkey, hrest⟩ := List.cons.inj hkeys
      refine cons_beq_cons_iff.2 ⟨hkey, ?_, ?_⟩
      · exact hvalues head.1 head.2 other.2 List.mem_cons_self (hkey ▸ List.mem_cons_self)
      · apply ih hrest
        intro key value later hvalue hlater
        exact hvalues key value later (List.mem_cons_of_mem _ hvalue) (List.mem_cons_of_mem _ hlater)

/-- Tables compare as equal exactly when what they find under each key does. -/
theorem beq_iff {first second : Table κ β} :
    (first == second) = true ↔ ∀ key, (first.get? key == second.get? key) = true := by
  constructor
  · intro hsame key
    exact find_beq_of_beq hsame key
  · intro hsame
    have hkeys : first.mapValues (fun _ ↦ ()) = second.mapValues (fun _ ↦ ()) := by
      apply ext_get?
      intro key
      rw [get?_mapValues, get?_mapValues]
      have hkey := hsame key
      cases hfirst : first.get? key <;> cases hsecond : second.get? key <;>
        simp_all
    apply beq_of_keys_eq
    · have hlisted := congrArg keys hkeys
      rwa [keys_mapValues, keys_mapValues] at hlisted
    · intro key value other hvalue hother
      have hkey := hsame key
      rwa [get?_eq_some_iff.2 hvalue, get?_eq_some_iff.2 hother] at hkey

end PlantGrowth.Table
