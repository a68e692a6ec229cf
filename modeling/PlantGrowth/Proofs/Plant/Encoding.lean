import Mathlib.Data.List.Perm.Subperm
import PlantGrowth.Plant.Encoding
import PlantGrowth.Proofs.Plant.Config
import PlantGrowth.Proofs.Table
import PlantGrowth.Proofs.Turtle.Encoding

/-!
# Decoding configurations

A configuration is decoded from every tree that is the same as its encoding, whatever the order of
the entries, and only an absent symbol cap comes back as that of the sample scene.
-/

namespace PlantGrowth.Config

open Scene Toml Turtle Value

/-! ## Tables and numbers -/

variable {β : Type} {decode : Value → Option β} {table : Table Word β}

/-- Fields under the keys of a table that are decoded to its contents make up some of its entries. -/
theorem exists_decoded_entries {part : Entries}
    (hkeys : ∀ field ∈ part, field.1 ∈ table.entries.map Prod.fst)
    (hvalues : ∀ field ∈ part, ∀ content, (field.1, content) ∈ table.entries →
      decode field.2 = some content) :
    ∃ decoded, part.mapM (fun field ↦ (decode field.2).map fun content ↦ (field.1, content)) =
      some decoded ∧ decoded.map Prod.fst = part.map Prod.fst ∧ decoded ⊆ table.entries := by
  induction part with
  | nil => exact ⟨[], rfl, rfl, List.nil_subset _⟩
  | cons field rest ih =>
    obtain ⟨hkey, hkeys⟩ := List.forall_mem_cons.1 hkeys
    obtain ⟨hvalue, hvalues⟩ := List.forall_mem_cons.1 hvalues
    obtain ⟨decoded, hall, hnames, hsubset⟩ := ih hkeys hvalues
    obtain ⟨⟨key, content⟩, hmem, hsame⟩ := List.mem_map.1 hkey
    have hentry : (field.1, content) ∈ table.entries := hsame ▸ hmem
    refine ⟨(field.1, content) :: decoded, ?_, by simp [hnames],
      List.cons_subset.2 ⟨hentry, hsubset⟩⟩
    simp [hvalue content hentry, hall]

theorem decodes_table {encode : β → Value}
    (hcontent : ∀ content, Decodes decode (encode content) content) (table : Table Word β) :
    Decodes (decodeTable? decode)
      (.table (table.entries.map fun entry ↦ (entry.1, encode entry.2))) table := by
  intro other hsame
  have hkeys : ((table.entries.map fun entry ↦ (entry.1, encode entry.2)).map Prod.fst) =
      table.entries.map Prod.fst := by
    rw [List.map_map]
    rfl
  obtain ⟨found, rfl, hperm, hvalues⟩ := hsame.exists_entries (hkeys ▸ table.nodup_keys)
  rw [hkeys] at hperm
  obtain ⟨decoded, hall, hnames, hsubset⟩ := exists_decoded_entries
    (fun field hfield ↦ hperm.mem_iff.1 (List.mem_map_of_mem hfield))
    (fun field hfield content hentry ↦
      hcontent content (hvalues field.1 _ _ hfield (List.mem_map_of_mem hentry)))
  have hentries : decoded.Perm table.entries := by
    have hnodup : (decoded.map Prod.fst).Nodup := by
      rw [hnames]
      exact hperm.nodup_iff.2 table.nodup_keys
    have hlength : table.entries.length ≤ decoded.length := by
      have hcount := hperm.length_eq
      rw [← hnames] at hcount
      simpa using hcount.ge
    exact (List.subperm_of_subset (List.Nodup.of_map _ hnodup) hsubset).perm_of_length_le hlength
  rw [decodeTable?, entries?]
  simp [hall, Table.ofList_eq_of_perm hentries]

theorem decodes_iterations (iterations : UInt32) :
    Decodes iterations? (.integer iterations.toNat) iterations := by
  intro other hsame
  rw [iterations?, decodes_natural iterations.toNat hsame]
  simp [iterations.toNat_lt]

/-! ## Entries -/

variable {config : Config} {found : Entries}

theorem nodup_encode (config : Config) : (config.encode.map Prod.fst).Nodup := by
  cases hcap : config.maxSymbols <;> simp [encode, hcap]

/-- An entry that is there is decoded, whatever it would be replaced by otherwise. -/
theorem entryOr_eq_some {β : Type} {name : String} {fallback content : β} {value : Value}
    {decode : Value → Option β} (hsame : (Value.table found).Same (.table config.encode))
    (hmem : (name.toList, value) ∈ config.encode) (hdecodes : Decodes decode value content) :
    entryOr found name fallback decode = some content := by
  obtain ⟨entries, hfound, hperm, hvalues⟩ := hsame.exists_entries (nodup_encode config)
  cases hfound
  obtain ⟨other, hlookup, hother⟩ := exists_lookup (nodup_encode config) hperm hvalues hmem
  rw [entryOr, hlookup]
  exact hdecodes hother

theorem entryOr_maxSymbols (hsame : (Value.table found).Same (.table config.encode)) :
    entryOr found "max_symbols" sample.maxSymbols (fun value ↦ value.natural?.map some) =
      some (config.maxSymbols.or sample.maxSymbols) := by
  cases hcap : config.maxSymbols with
  | some cap =>
    have hdecodes : Decodes (fun value ↦ value.natural?.map some) (.integer cap) (some cap) :=
      fun hother ↦ by simp [decodes_natural cap hother]
    exact entryOr_eq_some hsame (by simp [encode, hcap]) hdecodes
  | none =>
    obtain ⟨entries, hfound, hperm, -⟩ := hsame.exists_entries (nodup_encode config)
    cases hfound
    have habsent : found.lookup "max_symbols".toList = none := by
      apply lookup_eq_none_of_notMem
      rw [hperm.mem_iff]
      simp [encode, hcap]
    rw [entryOr, habsent]
    rfl

/-- A configuration is decoded from what it is encoded as, in any order of the entries. -/
theorem decode?_of_same (hsame : (Value.table found).Same (.table config.encode)) :
    decode? found = some { config with maxSymbols := config.maxSymbols.or sample.maxSymbols } := by
  have hentry {β : Type} {name : String} (fallback : β) {content : β} {value : Value}
      {decode : Value → Option β} (hmem : (name.toList, value) ∈ config.encode)
      (hdecodes : Decodes decode value content) :
      entryOr found name fallback decode = some content :=
    entryOr_eq_some hsame hmem hdecodes
  rw [decode?, hentry sample.seed (by simp [encode]) (decodes_text config.seed),
    hentry sample.iterations (by simp [encode]) (decodes_iterations config.iterations),
    hentry sample.spread (by simp [encode]) (decodes_float32 config.spread),
    hentry sample.stepLength (by simp [encode]) (decodes_float32 config.stepLength),
    hentry sample.shrinkFactor (by simp [encode]) (decodes_float32 config.shrinkFactor),
    entryOr_maxSymbols hsame,
    hentry sample.maxStackDepth (by simp [encode]) (decodes_natural config.maxStackDepth),
    hentry sample.origin (by simp [encode]) (Vector3.decodes config.origin),
    hentry sample.rules (by simp [encode, encodeRules]) (decodes_table decodes_text config.rules),
    hentry sample.symbols (by simp [encode, encodeSymbols])
      (decodes_table Op.decodes config.symbols),
    hentry sample.branchMesh (by simp [encode]) (MeshFrame.decodes config.branchMesh),
    hentry sample.ornamentMesh (by simp [encode]) (MeshFrame.decodes config.ornamentMesh)]
  rfl

/-! ## Documents -/

theorem Valid.withMaxSymbols (hvalid : config.Valid) (maxSymbols : Option ℕ) :
    { config with maxSymbols }.Valid :=
  ⟨hvalid.seed, hvalid.keys, hvalid.spread, hvalid.stepLength, hvalid.shrinkFactor, hvalid.origin⟩

/-- A document of the same tree is read as the configuration. -/
theorem read_of_same {text : Word} (hvalid : config.Valid) (hread : Toml.read? text = some found)
    (hsame : (Value.table found).Same (.table config.encode)) :
    read text = .ok { config with maxSymbols := config.maxSymbols.or sample.maxSymbols } := by
  have hagain := validate_eq_ok_iff.2 (hvalid.withMaxSymbols (config.maxSymbols.or sample.maxSymbols))
  rw [read, hread, Option.bind_some, decode?_of_same hsame]
  simp only [hagain]
  rfl

end PlantGrowth.Config
