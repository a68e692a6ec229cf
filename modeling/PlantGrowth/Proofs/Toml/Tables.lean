import PlantGrowth.Proofs.Toml.Reader
import PlantGrowth.Proofs.Toml.Tree

/-!
# Written trees are read back

A tree of tables is laid out as its plain entries and a section for every table inside it, and a
heading is left out where a table holds nothing but tables. Entering the sections one by one builds
the tree again, with the plain entries of each table ahead of the tables in it.
-/

namespace PlantGrowth.Toml

open Document Nodes Reader

/-! ## Trees -/

/-- Tables with unique keys, nested less deeply than the given depth, that hold flat values. -/
def IsTree : ℕ → Entries → Prop
  | 0, _ => False
  | depth + 1, entries => (entries.map Prod.fst).Nodup ∧
      ∀ entry ∈ entries, IsFlat entry.2 ∨ ∃ inner, entry.2 = .table inner ∧ IsTree depth inner

/-- What a tree may hold under a key. -/
def IsContent (depth : ℕ) (value : Value) : Prop :=
  IsFlat value ∨ ∃ inner, value = .table inner ∧ IsTree depth inner

variable {depth : ℕ} {key : Word} {entries : Entries} {nodes before : Nodes} {sections : List Section}

theorem isTable_of_isFlat {value : Value} (hflat : IsFlat value) : value.isTable = false := by
  cases hflat with
  | scalar hscalar => cases hscalar <;> rfl
  | array => rfl

/-- Flat values are written on the line of their key. -/
theorem isPlain_of_isFlat {value : Value} (hflat : IsFlat value) : value.isPlain = true := by
  have hsections : value.isSectionArray = false := by
    cases hflat with
    | scalar hscalar => cases hscalar <;> rfl
    | @array elements helements =>
      cases elements with
      | nil => rfl
      | cons first others =>
        have hfirst := isTable_of_isFlat (.scalar (helements first List.mem_cons_self))
        simp [Value.isSectionArray, hfirst]
  simp [Value.isPlain, isTable_of_isFlat hflat, hsections]

theorem IsTree.nodup (htree : IsTree depth entries) : (entries.map Prod.fst).Nodup := by
  cases depth with
  | zero => cases htree
  | succ depth => exact htree.1

/-- An entry is plain unless it holds a table. -/
theorem IsTree.isPlain_eq (htree : IsTree depth entries) {entry : Word × Value}
    (hentry : entry ∈ entries) : entry.2.isPlain = !entry.2.isTable := by
  cases depth with
  | zero => cases htree
  | succ depth =>
    rcases htree.2 entry hentry with hflat | ⟨inner, hinner, -⟩
    · rw [isPlain_of_isFlat hflat, isTable_of_isFlat hflat]
      rfl
    · rw [hinner]
      rfl

/-! ## Plain entries -/

/-- The entries that are not tables, as values under construction. -/
def leaves (entries : Entries) : Nodes :=
  (entries.filter fun entry ↦ entry.2.isPlain).map fun entry ↦ (entry.1, .leaf entry.2)

theorem assign_key (habsent : key ∉ nodes.map Prod.fst) (value : Value) :
    assign nodes ⟨⟨[], key⟩, value⟩ = some (nodes ++ [(key, .leaf value)]) := by
  simp [assign, within, Value.lookup_eq_none_of_notMem habsent]

theorem assignAll_entries (hkeys : (nodes.map Prod.fst ++ entries.map Prod.fst).Nodup) :
    assignAll nodes (entries.map fun entry ↦ ⟨⟨[], entry.1⟩, entry.2⟩) =
      some (nodes ++ entries.map fun entry ↦ (entry.1, .leaf entry.2)) := by
  induction entries generalizing nodes with
  | nil => simp [assignAll]
  | cons entry rest ih =>
    have habsent : entry.1 ∉ nodes.map Prod.fst := by
      intro hmem
      exact (List.nodup_append.1 hkeys).2.2 _ hmem _ List.mem_cons_self rfl
    have hlater : ((nodes ++ [(entry.1, Node.leaf entry.2)]).map Prod.fst ++
        rest.map Prod.fst).Nodup := by
      simpa using hkeys
    have hrest := ih hlater
    rw [assignAll] at hrest ⊢
    rw [List.map_cons, List.foldlM_cons, assign_key habsent]
    simpa using hrest

/-- The plain entries of a table with unique keys are set one after the other. -/
theorem assignAll_plainAssignments (hkeys : (entries.map Prod.fst).Nodup) :
    assignAll [] (plainAssignments entries) = some (leaves entries) := by
  have hplain : ((entries.filter fun entry ↦ entry.2.isPlain).map Prod.fst).Nodup :=
    (List.filter_sublist.map Prod.fst).nodup hkeys
  exact @assignAll_entries (entries.filter fun entry ↦ entry.2.isPlain) [] (by simpa using hplain)

/-! ## Sections under a key -/

/-- A section of the table that a key holds. -/
def under (key : Word) (part : Section) : Section :=
  { part with path := ⟨key :: part.path.parents, part.path.key⟩ }

mutual

theorem sectionsOf_cons (key : Word) (parents : List Word) : ∀ entries : Entries,
    sectionsOf (key :: parents) entries = (sectionsOf parents entries).map (under key)
  | [] => by rw [sectionsOf, sectionsOf, List.map_nil]
  | (name, value) :: rest => by
    rw [sectionsOf, sectionsOf, List.map_append, valueSections_cons key parents name value,
      sectionsOf_cons key parents rest]

theorem valueSections_cons (key : Word) (parents : List Word) (name : Word) : ∀ value : Value,
    valueSections ⟨key :: parents, name⟩ value =
      (valueSections ⟨parents, name⟩ value).map (under key)
  | .table entries => by
    have hinner := sectionsOf_cons key (parents ++ [name]) entries
    simp only [valueSections, KeyPath.parts, List.cons_append, hinner]
    split <;> rfl
  | .array elements => by
    simp only [valueSections]
    split
    · exact elementSections_cons key parents name elements
    · rfl
  | .string _ | .integer _ | .float _ | .boolean _ | .datetime _ => by simp [valueSections]

theorem elementSections_cons (key : Word) (parents : List Word) (name : Word) :
    ∀ elements : List Value, elementSections ⟨key :: parents, name⟩ elements =
      (elementSections ⟨parents, name⟩ elements).map (under key)
  | [] => by simp [elementSections]
  | .table entries :: rest => by
    have hinner := sectionsOf_cons key (parents ++ [name]) entries
    simp only [elementSections, KeyPath.parts, List.cons_append, hinner, List.map_append,
      List.map_cons, elementSections_cons key parents name rest]
    rfl
  | .string _ :: rest | .integer _ :: rest | .float _ :: rest | .boolean _ :: rest
  | .datetime _ :: rest | .array _ :: rest => by
    simpa [elementSections] using elementSections_cons key parents name rest

end

/-! ## Entering sections -/

/-- What a section does to the table that its heading leads to. -/
def place (part : Section) (found : Nodes) : Option Nodes :=
  match part.isElement, found.lookup part.path.key with
  | true, none => do
    let element ← assignAll [] part.assignments
    return found ++ [(part.path.key, .elements [element])]
  | true, some (.elements tables) => do
    let element ← assignAll [] part.assignments
    return found.replace part.path.key (.elements (tables ++ [element]))
  | false, none => do
    let inner ← assignAll [] part.assignments
    return found ++ [(part.path.key, .table .heading inner)]
  | false, some (.table .passage inner) => do
    let extended ← assignAll inner part.assignments
    return found.replace part.path.key (.table .heading extended)
  | _, _ => none

theorem enter_eq (nodes : Nodes) (part : Section) : enter nodes part =
    within .passage (fun _ ↦ place part) part.path.parents .heading nodes := rfl

theorem within_origin (fresh : Origin) (change : Nodes → Option Nodes) (path : List Word)
    (origin other : Origin) (nodes : Nodes) :
    within fresh (fun _ ↦ change) path origin nodes =
      within fresh (fun _ ↦ change) path other nodes := by
  cases path <;> rfl

theorem replace_last (habsent : key ∉ before.map Prod.fst) (node other : Node) :
    replace (before ++ [(key, node)]) key other = before ++ [(key, other)] := by
  have hsame : (before.map fun entry ↦ if entry.1 == key then (key, other) else entry) = before := by
    conv_rhs => rw [← List.map_id before]
    apply List.map_congr_left
    intro entry hentry
    rw [if_neg]
    · rfl
    · rw [beq_iff_eq]
      rintro rfl
      exact habsent (List.mem_map_of_mem hentry)
  rw [replace, List.map_append, hsame]
  simp

theorem lookup_last (habsent : key ∉ before.map Prod.fst) (node : Node) :
    (before ++ [(key, node)]).lookup key = some node := by
  rw [List.lookup_append, Value.lookup_eq_none_of_notMem habsent]
  simp

/-- A section under a key that is new makes a table on its way. -/
theorem enter_under_new (habsent : key ∉ before.map Prod.fst) (part : Section) :
    enter before (under key part) =
      (enter [] part).map fun inner ↦ before ++ [(key, .table .passage inner)] := by
  have hplace : place (under key part) = place part := rfl
  rw [enter_eq, enter_eq, hplace, under, within, Value.lookup_eq_none_of_notMem habsent,
    within_origin .passage (place part) part.path.parents .passage .heading []]
  simp only [Option.map_eq_bind]
  rfl

/-- A section under a key changes the table that the key holds. -/
theorem enter_under_last (habsent : key ∉ before.map Prod.fst) (origin : Origin) (inner : Nodes)
    (part : Section) : enter (before ++ [(key, .table origin inner)]) (under key part) =
      (enter inner part).map fun changed ↦ before ++ [(key, .table origin changed)] := by
  have hplace : place (under key part) = place part := rfl
  rw [enter_eq, enter_eq, hplace, under, within, lookup_last habsent,
    within_origin .passage (place part) part.path.parents .heading origin inner]
  simp only [replace_last habsent, Option.map_eq_bind]
  rfl

theorem foldlM_under_last (habsent : key ∉ before.map Prod.fst) (origin : Origin) (inner : Nodes)
    (sections : List Section) :
    (sections.map (under key)).foldlM enter (before ++ [(key, .table origin inner)]) =
      (sections.foldlM enter inner).map fun changed ↦ before ++ [(key, .table origin changed)] := by
  induction sections generalizing inner with
  | nil => rfl
  | cons first others ih =>
    rw [List.map_cons, List.foldlM_cons, List.foldlM_cons, enter_under_last habsent]
    cases hfirst : enter inner first with
    | none => rfl
    | some changed => exact ih changed

theorem foldlM_under_new (habsent : key ∉ before.map Prod.fst) (hsome : sections ≠ []) :
    (sections.map (under key)).foldlM enter before =
      (sections.foldlM enter []).map fun inner ↦ before ++ [(key, .table .passage inner)] := by
  cases sections with
  | nil => exact absurd rfl hsome
  | cons first others =>
    rw [List.map_cons, List.foldlM_cons, List.foldlM_cons, enter_under_new habsent]
    cases hfirst : enter [] first with
    | none => rfl
    | some inner => exact foldlM_under_last habsent .passage inner others

/-! ## Entering trees -/

theorem entriesOf_eq (nodes : Nodes) :
    entriesOf nodes = nodes.map fun entry ↦ (entry.1, entry.2.value) := by
  induction nodes with
  | nil => rw [entriesOf, List.map_nil]
  | cons entry rest ih => rw [entriesOf, ih, List.map_cons]

/-- The entries that are tables. -/
def tablesOf (entries : Entries) : Entries := entries.filter fun entry ↦ entry.2.isTable

theorem tablesOf_cons_flat {value : Value} (hflat : IsFlat value) (key : Word) (rest : Entries) :
    tablesOf ((key, value) :: rest) = tablesOf rest :=
  List.filter_cons_of_neg (by simp [isTable_of_isFlat hflat])

theorem tablesOf_cons_table (key : Word) (inner rest : Entries) :
    tablesOf ((key, .table inner) :: rest) = (key, .table inner) :: tablesOf rest :=
  List.filter_cons_of_pos rfl

/-- The keys of the plain entries and of the tables are those of the tree. -/
theorem IsTree.keys_perm (htree : IsTree depth entries) :
    ((leaves entries).map Prod.fst ++ (tablesOf entries).map Prod.fst).Perm
      (entries.map Prod.fst) := by
  have htables : tablesOf entries = entries.filter fun entry ↦ !entry.2.isPlain := by
    apply List.filter_congr
    intro entry hentry
    rw [htree.isPlain_eq hentry, Bool.not_not]
  have hkeys : (leaves entries).map Prod.fst =
      (entries.filter fun entry ↦ entry.2.isPlain).map Prod.fst := by
    rw [leaves, List.map_map]
    rfl
  rw [hkeys, htables, ← List.map_append]
  exact (List.filter_append_perm _ entries).map Prod.fst

theorem IsTree.nodup_keys (htree : IsTree depth entries) :
    ((leaves entries).map Prod.fst ++ (tablesOf entries).map Prod.fst).Nodup :=
  htree.keys_perm.nodup_iff.2 htree.nodup

/-- Nodes for the tables among some entries. -/
def Builds (tables : Nodes) (entries : Entries) : Prop :=
  List.Forall₂ (fun node entry ↦ node.1 = entry.1 ∧ node.2.value.Same entry.2) tables
    (tablesOf entries)

theorem Builds.keys {tables : Nodes} (hbuilds : Builds tables entries) :
    tables.map Prod.fst = (tablesOf entries).map Prod.fst := by
  have hkeys : List.Forall₂ Eq (tables.map Prod.fst) ((tablesOf entries).map Prod.fst) := by
    rw [List.forall₂_map_left_iff, List.forall₂_map_right_iff]
    exact hbuilds.imp fun _ _ hmatch ↦ hmatch.1
  rwa [List.forall₂_eq_eq_eq] at hkeys

theorem exists_of_forall₂ {α β : Type} {relation : α → β → Prop} {firsts : List α}
    {seconds : List β} (hmatch : List.Forall₂ relation firsts seconds) {first : α}
    (hmem : first ∈ firsts) : ∃ second ∈ seconds, relation first second := by
  induction hmatch with
  | nil => cases hmem
  | cons hhead _ ih =>
    rcases List.mem_cons.1 hmem with rfl | hlater
    · exact ⟨_, List.mem_cons_self, hhead⟩
    · obtain ⟨second, hsecond, hrelated⟩ := ih hlater
      exact ⟨second, List.mem_cons_of_mem _ hsecond, hrelated⟩

/-- The plain entries and the tables of a tree make up the same tree. -/
theorem Builds.same {tables : Nodes} (hbuilds : Builds tables entries) (htree : IsTree depth entries) :
    (Value.table (entriesOf (leaves entries ++ tables))).Same (.table entries) := by
  have hunique {value other : Value} {key : Word} (hvalue : (key, value) ∈ entries)
      (hother : (key, other) ∈ entries) : value = other :=
    congrArg Prod.snd (List.inj_on_of_nodup_map htree.nodup hvalue hother rfl)
  rw [entriesOf_eq]
  apply Value.Same.table
  · have hkeys := htree.keys_perm
    rw [← hbuilds.keys, ← List.map_append] at hkeys
    rw [List.map_map]
    exact hkeys
  · intro key value other hfound hother
    obtain ⟨node, hnode, hentry⟩ := List.mem_map.1 hfound
    obtain ⟨rfl, rfl⟩ := Prod.mk.inj hentry
    rcases List.mem_append.1 hnode with hleaf | htable
    · obtain ⟨entry, hplain, rfl⟩ := List.mem_map.1 hleaf
      have hsame := hunique (List.mem_filter.1 hplain).1 hother
      rw [← hsame]
      exact .refl _
    · obtain ⟨entry, hmem, hkey, hsame⟩ := exists_of_forall₂ hbuilds htable
      rw [hkey] at hother
      rw [← hunique (List.mem_filter.1 hmem).1 hother]
      exact hsame

/-- Every table has a section of its own or inside it. -/
theorem valueSections_ne_nil (htree : IsTree depth entries) (path : KeyPath) :
    valueSections path (.table entries) ≠ [] := by
  induction depth generalizing entries path with
  | zero => cases htree
  | succ depth ih =>
    simp only [valueSections]
    split
    · exact List.cons_ne_nil _ _
    · rename_i hhidden
      cases entries with
      | nil => simp at hhidden
      | cons entry rest =>
        have htable : entry.2.isPlain = false := by
          rw [Bool.eq_false_iff]
          intro hplain
          simp [plainAssignments, hplain] at hhidden
        rcases htree.2 entry List.mem_cons_self with hflat | ⟨inner, hinner, hlater⟩
        · simp [isPlain_of_isFlat hflat] at htable
        · obtain ⟨key, value⟩ := entry
          cases hinner
          rw [sectionsOf]
          exact List.append_ne_nil_of_left_ne_nil (ih hlater _) _

theorem valueSections_of_isFlat {value : Value} (hflat : IsFlat value) (path : KeyPath) :
    valueSections path value = [] := by
  have hplain := isPlain_of_isFlat hflat
  cases value with
  | array elements =>
    rw [Value.isPlain, Bool.and_eq_true, Bool.not_eq_true', Bool.not_eq_true'] at hplain
    rw [valueSections, if_neg (by simp [hplain.2])]
  | table => cases hplain
  | _ => simp [valueSections]

/-- The tables among some entries are built by their sections, whatever is there before. -/
def AreBuilt (entries : Entries) : Prop :=
  ∀ nodes : Nodes, (nodes.map Prod.fst ++ (tablesOf entries).map Prod.fst).Nodup →
    ∃ tables, (sectionsOf [] entries).foldlM enter nodes = some (nodes ++ tables) ∧
      Builds tables entries

theorem leaves_eq_nil (hhidden : plainAssignments entries = []) : leaves entries = [] := by
  rw [plainAssignments, List.map_eq_nil_iff] at hhidden
  rw [leaves, hhidden, List.map_nil]

/-- The sections of a table build it under its key. -/
theorem exists_node (htree : IsTree depth entries) (hbuilt : AreBuilt entries)
    (habsent : key ∉ before.map Prod.fst) :
    ∃ node : Node, (valueSections ⟨[], key⟩ (.table entries)).foldlM enter before =
      some (before ++ [(key, node)]) ∧ node.value.Same (.table entries) := by
  obtain ⟨tables, hrun, hbuilds⟩ := hbuilt (leaves entries) htree.nodup_keys
  have hsome := valueSections_ne_nil htree ⟨[], key⟩
  have hunder : sectionsOf [key] entries = (sectionsOf [] entries).map (under key) :=
    sectionsOf_cons key [] entries
  simp only [valueSections, KeyPath.parts, List.nil_append, hunder] at hsome ⊢
  have hsame := hbuilds.same htree
  split
  · refine ⟨.table .heading (leaves entries ++ tables), ?_, hsame⟩
    have hopen : enter before ⟨false, ⟨[], key⟩, plainAssignments entries⟩ =
        some (before ++ [(key, .table .heading (leaves entries))]) := by
      simp [enter, within, Value.lookup_eq_none_of_notMem habsent,
        assignAll_plainAssignments htree.nodup]
    rw [List.foldlM_cons, hopen]
    exact (foldlM_under_last habsent .heading (leaves entries) _).trans (by rw [hrun]; rfl)
  · -- Without a heading of its own the table comes about on the way to the first one inside it.
    rename_i hhidden
    rw [if_neg hhidden] at hsome
    simp only [Bool.or_eq_true, Bool.not_eq_true', not_or, Bool.not_eq_false,
      List.isEmpty_iff] at hhidden
    rw [leaves_eq_nil hhidden.2] at hrun hsame
    refine ⟨.table .passage tables, ?_, hsame⟩
    rw [foldlM_under_new habsent (by simpa using hsome), hrun]
    rfl

/-- An entry in front adds its own node, if it is a table. -/
theorem areBuilt_cons {value : Value} (hcontent : IsContent depth value)
    (hinner : ∀ inner, IsTree depth inner → AreBuilt inner) {rest : Entries}
    (hrest : AreBuilt rest) : AreBuilt ((key, value) :: rest) := by
  intro nodes hkeys
  rw [sectionsOf, List.foldlM_append]
  rcases hcontent with hflat | ⟨inner, rfl, htree⟩
  · rw [tablesOf_cons_flat hflat] at hkeys
    obtain ⟨tables, hrun, hbuilds⟩ := hrest nodes hkeys
    refine ⟨tables, ?_, ?_⟩
    · rw [valueSections_of_isFlat hflat]
      exact hrun
    · rw [Builds, tablesOf_cons_flat hflat]
      exact hbuilds
  · rw [tablesOf_cons_table] at hkeys
    have habsent : key ∉ nodes.map Prod.fst := by
      intro hmem
      exact (List.nodup_append.1 hkeys).2.2 key hmem key List.mem_cons_self rfl
    obtain ⟨node, hnode, hsame⟩ := exists_node htree (hinner inner htree) habsent
    have hlater : ((nodes ++ [(key, node)]).map Prod.fst ++
        (tablesOf rest).map Prod.fst).Nodup := by
      simpa using hkeys
    obtain ⟨tables, hrun, hbuilds⟩ := hrest _ hlater
    refine ⟨(key, node) :: tables, ?_, ?_⟩
    · rw [hnode]
      simpa using hrun
    · rw [Builds, tablesOf_cons_table]
      exact .cons ⟨rfl, hsame⟩ hbuilds

theorem IsTree.areBuilt (htree : IsTree depth entries) : AreBuilt entries := by
  -- The depth leads into the tables, the list through the entries of one table.
  induction depth generalizing entries with
  | zero => cases htree
  | succ depth ih =>
    have hcontents := htree.2
    clear htree
    induction entries with
    | nil => exact fun nodes _ ↦ ⟨[], by simp [sectionsOf], .nil⟩
    | cons entry rest ihRest =>
      obtain ⟨hentry, hrest⟩ := List.forall_mem_cons.1 hcontents
      exact areBuilt_cons hentry (fun inner hinner ↦ ih hinner) (ihRest hrest)

/-! ## Documents of trees -/

theorem IsTree.isLine (htree : IsTree depth entries) {written : Assignment}
    (hwritten : written ∈ plainAssignments entries) : IsLine written := by
  obtain ⟨entry, hentry, rfl⟩ := List.mem_map.1 hwritten
  obtain ⟨hmem, hplain⟩ := List.mem_filter.1 hentry
  cases depth with
  | zero => cases htree
  | succ depth =>
    rcases htree.2 entry hmem with hflat | ⟨inner, hinner, -⟩
    · exact ⟨(by decide : 1 < nestingLimit), hflat⟩
    · rw [hinner] at hplain
      cases hplain

theorem IsTree.isSection_heading (htree : IsTree depth entries) {parents : List Word}
    (hshort : parents.length + depth < nestingLimit) :
    IsSection ⟨false, ⟨parents, key⟩, plainAssignments entries⟩ := by
  refine ⟨?_, fun written hwritten ↦ htree.isLine hwritten⟩
  cases depth with
  | zero => cases htree
  | succ depth =>
    simp only [KeyPath.parts, List.length_append, List.length_singleton]
    omega

/-- The paths of sections have at most as many parts as tables are nested. -/
theorem IsTree.isSection (htree : IsTree depth entries) {parents : List Word}
    (hshort : parents.length + depth ≤ nestingLimit) {part : Section}
    (hpart : part ∈ sectionsOf parents entries) : IsSection part := by
  induction depth generalizing entries parents with
  | zero => cases htree
  | succ depth ih =>
    obtain ⟨-, hentries⟩ := htree
    induction entries with
    | nil => simp [sectionsOf] at hpart
    | cons entry rest ihRest =>
      obtain ⟨hentry, hrest⟩ := List.forall_mem_cons.1 hentries
      obtain ⟨key, value⟩ := entry
      rw [sectionsOf, List.mem_append] at hpart
      rcases hpart with hhere | hlater
      · rcases hentry with hflat | ⟨inner, rfl, hinner⟩
        · rw [valueSections_of_isFlat hflat] at hhere
          cases hhere
        · have hnested : part ∈ sectionsOf (parents ++ [key]) inner → IsSection part := by
            apply ih hinner
            rw [List.length_append, List.length_singleton]
            omega
          simp only [valueSections, KeyPath.parts] at hhere
          split at hhere
          · rcases List.mem_cons.1 hhere with rfl | hinside
            · exact hinner.isSection_heading (by omega)
            · exact hnested hinside
          · exact hnested hhere
      · exact ihRest hlater hrest

/-- A tree is read back from its document, up to the order of entries. -/
theorem exists_read?_eq (htree : IsTree nestingLimit entries) :
    ∃ found, read? (Document.ofEntries entries).text = some found ∧
      (Value.table found).Same (.table entries) := by
  have hplain : IsPlainDocument (Document.ofEntries entries) :=
    ⟨fun written hwritten ↦ htree.isLine hwritten,
      fun part hpart ↦ @IsTree.isSection nestingLimit entries htree [] (by simp) part hpart⟩
  obtain ⟨tables, hrun, hbuilds⟩ := htree.areBuilt (leaves entries) htree.nodup_keys
  refine ⟨entriesOf (leaves entries ++ tables), ?_, hbuilds.same htree⟩
  rw [read?, parse?_text hplain, Option.bind_some, Document.entries?]
  simp only [Document.ofEntries, assignAll_plainAssignments htree.nodup, Option.bind_eq_bind,
    Option.bind_some, hrun]
  rfl

theorem haveWritableValues_iff :
    haveWritableValues entries = true ↔ ∀ entry ∈ entries, entry.2.isWritable = true := by
  induction entries with
  | nil => simp [haveWritableValues]
  | cons entry rest ih => simp [haveWritableValues, ih]

theorem isWritable_of_isScalar {value : Value} (hscalar : IsScalar value) :
    value.isWritable = true := by
  cases hscalar with
  | string => rfl
  | integer hrange => exact hrange
  | float => rfl

theorem isWritable_of_isFlat {value : Value} (hflat : IsFlat value) : value.isWritable = true := by
  cases hflat with
  | scalar hscalar => exact isWritable_of_isScalar hscalar
  | @array elements helements =>
    rw [Value.isWritable]
    induction elements with
    | nil => rfl
    | cons first others ih =>
      obtain ⟨hfirst, hothers⟩ := List.forall_mem_cons.1 helements
      rw [areWritable, isWritable_of_isScalar hfirst, ih hothers]
      rfl

theorem IsTree.haveWritableValues (htree : IsTree depth entries) :
    haveWritableValues entries = true := by
  induction depth generalizing entries with
  | zero => cases htree
  | succ depth ih =>
    rw [haveWritableValues_iff]
    intro entry hentry
    rcases htree.2 entry hentry with hflat | ⟨inner, hinner, hlater⟩
    · exact isWritable_of_isFlat hflat
    · rw [hinner, Value.isWritable]
      exact ih hlater

/-- A tree is written, and its text is read as the tree, up to the order of entries. -/
theorem exists_write?_eq (htree : IsTree nestingLimit entries) :
    ∃ text found, write? entries = some text ∧ read? text = some found ∧
      (Value.table found).Same (.table entries) := by
  obtain ⟨found, hread, hsame⟩ := exists_read?_eq htree
  exact ⟨_, found, by rw [write?, if_pos htree.haveWritableValues], hread, hsame⟩

end PlantGrowth.Toml
