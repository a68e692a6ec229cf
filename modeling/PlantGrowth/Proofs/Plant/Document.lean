import PlantGrowth.Proofs.Plant.Config
import PlantGrowth.Proofs.Plant.Encoding
import PlantGrowth.Proofs.Toml.Tables

/-!
# Written configurations are read back

A configuration is encoded as a tree of texts, numbers and tables with unique keys, so its document
is read as the same tree and decoded as the same configuration. Only the symbol cap and the stack
depth can be too large for an integer of the document, and then nothing is written.
-/

namespace PlantGrowth

open Scene Toml Turtle Value

/-! ## Encoded values are trees -/

variable {depth : ℕ}

theorem isScalar_ofFloat32 (number : Float32) : Reader.IsScalar (.ofFloat32 number) := .float number

theorem isFlat_ofFloats (numbers : List Float32) : Reader.IsFlat (.ofFloats numbers) := by
  apply Reader.IsFlat.array
  intro value hvalue
  obtain ⟨number, -, rfl⟩ := List.mem_map.1 hvalue
  exact isScalar_ofFloat32 number

theorem isContent_record {fields : List (String × Value)} (hnames : (fields.map Prod.fst).Nodup)
    (hfields : ∀ field ∈ fields, IsContent depth field.2) :
    IsContent (depth + 1) (.record fields) := by
  refine .inr ⟨_, rfl, nodup_record hnames, ?_⟩
  intro entry hentry
  obtain ⟨field, hfield, rfl⟩ := List.mem_map.1 hentry
  exact hfields field hfield

theorem Scene.MeshFrame.isContent_encode (frame : MeshFrame Float32) :
    IsContent (depth + 1) frame.encode := by
  apply isContent_record (by simp)
  simp only [List.forall_mem_cons]
  exact ⟨.inl (isFlat_ofFloats _), .inl (isFlat_ofFloats _), .inl (.scalar (isScalar_ofFloat32 _)),
    by simp⟩

theorem Turtle.Op.isContent_encode (op : Op Float32) : IsContent (depth + 2) op.encode := by
  cases op with
  | turn axis degrees =>
    apply isContent_record (by simp)
    simp only [List.forall_mem_cons]
    refine ⟨isContent_record (by simp) ?_, by simp⟩
    simp only [List.forall_mem_cons]
    exact ⟨.inl (.scalar (.string _)), .inl (.scalar (isScalar_ofFloat32 degrees)), by simp⟩
  | yaw number | pitch number | roll number | setSpread number | setStep number =>
    apply isContent_record (by simp)
    simp only [List.forall_mem_cons]
    exact ⟨.inl (.scalar (isScalar_ofFloat32 number)), by simp⟩
  | draw | move | ornament | shrink | push | pop | ignore => exact .inl (.scalar (.string _))

/-- The encoded entries of a table of arbitrary keys. -/
theorem isContent_table {β : Type} (encode : β → Value) (table : Table Word β)
    (hencode : ∀ content, IsContent depth (encode content)) :
    IsContent (depth + 1) (.table (table.entries.map fun entry ↦ (entry.1, encode entry.2))) := by
  refine .inr ⟨_, rfl, ?_, ?_⟩
  · rw [List.map_map]
    exact table.nodup_keys
  · intro entry hentry
    obtain ⟨origin, -, rfl⟩ := List.mem_map.1 hentry
    exact hencode origin.2

namespace Config

/-- Do the settings without a bound of their own fit into the integers of a document? -/
structure IsWritable (config : Config) : Prop where
  maxSymbols : ∀ cap, config.maxSymbols = some cap → cap < 2 ^ 63
  maxStackDepth : config.maxStackDepth < 2 ^ 63

variable {config : Config}

theorem integerInRange_natCast (number : ℕ) :
    integerInRange number = true ↔ number < 2 ^ 63 := by
  simp [integerInRange, integerMin, integerMax]
  omega

theorem isTree_encode (hwritable : config.IsWritable) : IsTree Reader.nestingLimit config.encode := by
  have hinteger {number : ℕ} (hless : number < 2 ^ 63) : IsContent 79 (.integer number) :=
    .inl (.scalar (.integer ((integerInRange_natCast number).2 hless)))
  have hfloat (number : Float32) : IsContent 79 (.ofFloat32 number) :=
    .inl (.scalar (isScalar_ofFloat32 number))
  have hiterations := config.iterations.toNat_lt
  refine ⟨nodup_encode config, ?_⟩
  simp only [encode, List.forall_mem_append, List.forall_mem_cons, List.not_mem_nil,
    false_implies, implies_true, and_true]
  refine ⟨⟨⟨.inl (.scalar (.string _)), hinteger (by omega), hfloat _, hfloat _, hfloat _⟩, ?_⟩,
    hinteger hwritable.maxStackDepth, .inl (isFlat_ofFloats _),
    isContent_table .string config.rules fun _ ↦ .inl (.scalar (.string _)),
    isContent_table Op.encode config.symbols Op.isContent_encode,
    MeshFrame.isContent_encode _, MeshFrame.isContent_encode _⟩
  intro entry hentry
  cases hcap : config.maxSymbols with
  | none => simp [hcap] at hentry
  | some cap =>
    have hwritten : entry = ("max_symbols".toList, .integer cap) := by simpa [hcap] using hentry
    rw [hwritten]
    exact hinteger (hwritable.maxSymbols cap hcap)

theorem write_eq_error (hwritable : ¬config.IsWritable) :
    config.write = .error .unwritableDocument := by
  have hvalues : haveWritableValues config.encode ≠ true := by
    intro hvalues
    have hentries := haveWritableValues_iff.1 hvalues
    refine hwritable ⟨fun cap hcap ↦ ?_, ?_⟩
    · exact (integerInRange_natCast cap).1 (hentries ("max_symbols".toList, .integer cap)
        (by simp [encode, hcap]))
    · exact (integerInRange_natCast config.maxStackDepth).1
        (hentries ("max_stack_depth".toList, .integer config.maxStackDepth) (by simp [encode]))
  rw [write, write?, if_neg hvalues]

/-- A valid configuration is written and read back with all its settings, an absent cap excepted,
unless one of its integers is too large for a document. -/
theorem written_config_is_read_back (config : Config) :
    (config.validate = .ok () → config.IsWritable → ∃ text, config.write = .ok text ∧
      read text = .ok { config with maxSymbols := config.maxSymbols.or (some (2 ^ 22)) }) ∧
      (¬config.IsWritable → config.write = .error .unwritableDocument) := by
  refine ⟨fun hvalidate hwritable ↦ ?_, write_eq_error⟩
  obtain ⟨text, found, hwrite, hread, hsame⟩ := exists_write?_eq (isTree_encode hwritable)
  have hwritten : config.write = .ok text := by rw [write, hwrite]
  exact ⟨text, hwritten, read_of_same (validate_eq_ok_iff.1 hvalidate) hread hsame⟩

theorem written_config_is_read_back_shoot :
    (∃ text, { shoot with maxSymbols := none }.write = .ok text ∧
      read text = .ok { shoot with maxSymbols := some (2 ^ 22) }) ∧
      { shoot with maxStackDepth := 2 ^ 63 }.write = .error .unwritableDocument := by
  have hwritable : { shoot with maxSymbols := none }.IsWritable := ⟨by simp, by decide⟩
  have hdeep : ¬{ shoot with maxStackDepth := 2 ^ 63 }.IsWritable := by
    intro hwritable
    exact absurd hwritable.maxStackDepth (by decide)
  exact ⟨(written_config_is_read_back { shoot with maxSymbols := none }).1 rfl hwritable,
    (written_config_is_read_back { shoot with maxStackDepth := 2 ^ 63 }).2 hdeep⟩

end Config

end PlantGrowth
