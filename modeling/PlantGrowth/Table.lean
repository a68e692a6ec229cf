/-!
# Ordered tables

A table holds at most one value per key and lists its entries in strictly ascending key order.
The order is part of the type, so a table is determined by its entries and every way of building
the same associations gives the same listing.
-/

namespace PlantGrowth

/-- A strict total order on keys, given by a decision procedure. -/
class Key (κ : Type) where
  before : κ → κ → Bool
  before_irrefl : ∀ key : κ, before key key = false
  before_trans : ∀ {first second third : κ},
    before first second = true → before second third = true → before first third = true
  eq_of_not_before : ∀ {first second : κ},
    before first second = false → before second first = false → first = second

namespace Key

variable {κ : Type} [Key κ]

theorem before_asymm {first second : κ} (ahead : before first second = true) :
    before second first = false := by
  cases behind : before second first with
  | false => rfl
  | true => exact absurd (before_trans ahead behind) (by simp [before_irrefl])

theorem ne_of_before {first second : κ} (ahead : before first second = true) : first ≠ second := by
  intro same
  subst same
  simp [before_irrefl] at ahead

end Key

/-- Entries listed in strictly ascending key order. -/
def Ascending {κ β : Type} [Key κ] (entries : List (κ × β)) : Prop :=
  entries.Pairwise fun earlier later => Key.before earlier.1 later.1 = true

structure Table (κ β : Type) [Key κ] where
  entries : List (κ × β)
  ascending : Ascending entries

namespace Table

open Key

variable {κ β : Type} [Key κ]

/-! ## Entry lists -/

/-- Searches an ascending list, stopping at the first key that is not before the one sought. -/
def find (key : κ) : List (κ × β) → Option β
  | [] => none
  | (other, value) :: rest =>
    if before other key then find key rest
    else if before key other then none
    else some value

/-- Places an entry at its position, replacing the entry of an equal key. -/
def place (key : κ) (value : β) : List (κ × β) → List (κ × β)
  | [] => [(key, value)]
  | (other, held) :: rest =>
    if before other key then (other, held) :: place key value rest
    else if before key other then (key, value) :: (other, held) :: rest
    else (key, value) :: rest

/-- Leaves out the entry of a key. -/
def drop (key : κ) (entries : List (κ × β)) : List (κ × β) :=
  entries.filter fun entry => before entry.1 key || before key entry.1

theorem mem_place {key : κ} {value : β} {entry : κ × β} {entries : List (κ × β)}
    (present : entry ∈ place key value entries) : entry = (key, value) ∨ entry ∈ entries := by
  induction entries with
  | nil => simpa [place] using present
  | cons head rest ih =>
    obtain ⟨other, held⟩ := head
    unfold place at present
    split at present
    · rcases List.mem_cons.1 present with same | deeper
      · simp [same]
      · rcases ih deeper with placed | kept
        · exact Or.inl placed
        · simp [kept]
    · split at present
      · simpa using present
      · rcases List.mem_cons.1 present with same | kept
        · exact Or.inl same
        · exact Or.inr (List.mem_cons_of_mem _ kept)

theorem ascending_place (key : κ) (value : β) {entries : List (κ × β)}
    (ordered : Ascending entries) : Ascending (place key value entries) := by
  induction entries with
  | nil => simp [place, Ascending]
  | cons head rest ih =>
    obtain ⟨other, held⟩ := head
    obtain ⟨first, tailOrdered⟩ := List.pairwise_cons.1 ordered
    unfold place
    split
    · rename_i ahead
      refine List.pairwise_cons.2 ⟨fun entry present => ?_, ih tailOrdered⟩
      rcases mem_place present with placed | kept
      · simpa [placed] using ahead
      · exact first entry kept
    · split
      · rename_i _ ahead
        refine List.pairwise_cons.2 ⟨fun entry present => ?_, ordered⟩
        rcases List.mem_cons.1 present with same | deeper
        · simpa [same] using ahead
        · exact before_trans ahead (first entry deeper)
      · rename_i notBefore notAfter
        have same : other = key :=
          eq_of_not_before (by simpa using notBefore) (by simpa using notAfter)
        subst same
        exact List.pairwise_cons.2 ⟨first, tailOrdered⟩

theorem ascending_drop (key : κ) {entries : List (κ × β)} (ordered : Ascending entries) :
    Ascending (drop key entries) :=
  List.Pairwise.filter _ ordered

theorem ascending_map {γ : Type} (change : β → γ) {entries : List (κ × β)}
    (ordered : Ascending entries) :
    Ascending (entries.map fun entry => (entry.1, change entry.2)) :=
  List.pairwise_map.2 ordered

theorem find_map {γ : Type} (change : β → γ) (key : κ) (entries : List (κ × β)) :
    find key (entries.map fun entry => (entry.1, change entry.2)) =
      (find key entries).map change := by
  induction entries with
  | nil => rfl
  | cons head rest ih =>
    simp only [List.map_cons, find, ih]
    split
    · rfl
    · split <;> rfl

theorem find_eq_some_iff {key : κ} {value : β} {entries : List (κ × β)}
    (ordered : Ascending entries) :
    find key entries = some value ↔ (key, value) ∈ entries := by
  induction entries with
  | nil => simp [find]
  | cons head rest ih =>
    obtain ⟨other, held⟩ := head
    obtain ⟨first, tailOrdered⟩ := List.pairwise_cons.1 ordered
    unfold find
    split
    · rename_i ahead
      rw [ih tailOrdered]
      have different : key ≠ other := (ne_of_before ahead).symm
      simp [different]
    · split
      · rename_i _ ahead
        have absent : (key, value) ∉ rest := fun present => by
          have later := before_trans ahead (first _ present)
          simp [before_irrefl] at later
        simp [absent, ne_of_before ahead]
      · rename_i notBefore notAfter
        have same : other = key :=
          eq_of_not_before (by simpa using notBefore) (by simpa using notAfter)
        subst same
        have absent : (other, value) ∉ rest := fun present => by
          have later := first _ present
          simp [before_irrefl] at later
        simp [absent, eq_comm]

/-! ## Tables -/

def empty : Table κ β := ⟨[], List.Pairwise.nil⟩

def get? (table : Table κ β) (key : κ) : Option β := find key table.entries

def insert (table : Table κ β) (key : κ) (value : β) : Table κ β :=
  ⟨place key value table.entries, ascending_place key value table.ascending⟩

def erase (table : Table κ β) (key : κ) : Table κ β :=
  ⟨drop key table.entries, ascending_drop key table.ascending⟩

/-- The associations of a list, the last one of a key prevailing. -/
def ofList (associations : List (κ × β)) : Table κ β :=
  associations.foldl (fun table entry => table.insert entry.1 entry.2) empty

/-- The same keys, every value changed. -/
def mapValues {γ : Type} (change : β → γ) (table : Table κ β) : Table κ γ :=
  ⟨table.entries.map fun entry => (entry.1, change entry.2),
    ascending_map change table.ascending⟩

def keys (table : Table κ β) : List κ := table.entries.map Prod.fst

def size (table : Table κ β) : Nat := table.entries.length

instance [BEq κ] [BEq β] : BEq (Table κ β) where
  beq first second := first.entries == second.entries

theorem ext {first second : Table κ β} (same : first.entries = second.entries) :
    first = second := by
  cases first
  cases second
  simp_all

theorem get?_eq_some_iff {table : Table κ β} {key : κ} {value : β} :
    table.get? key = some value ↔ (key, value) ∈ table.entries :=
  find_eq_some_iff table.ascending

@[simp]
theorem get?_mapValues {γ : Type} (change : β → γ) (table : Table κ β) (key : κ) :
    (table.mapValues change).get? key = (table.get? key).map change :=
  find_map change key table.entries

theorem mem_insert {table : Table κ β} {key : κ} {value : β} {entry : κ × β}
    (present : entry ∈ (table.insert key value).entries) :
    entry = (key, value) ∨ entry ∈ table.entries :=
  mem_place present

theorem mem_erase {table : Table κ β} {key : κ} {entry : κ × β}
    (present : entry ∈ (table.erase key).entries) : entry ∈ table.entries :=
  (List.mem_filter.1 present).1

end Table

end PlantGrowth
