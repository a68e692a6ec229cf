import Mathlib
import PlantGrowth.Scene.Upload

/-!
# Reading buffers back

Matrices, columns and entries are laid out one after another in blocks of one size each, so a block
stands at the multiple of its size that its index says. The word at a place of a buffer is therefore
the pattern of one entry, and records of sixty-four bytes, read column by column, are the matrices of
the batch.
-/

namespace PlantGrowth

/-- The entry in a row. -/
def Column.entry {α : Type} (column : Column α) : Fin 4 → α
  | 0 => column.x
  | 1 => column.y
  | 2 => column.z
  | 3 => column.w

def Matrix4.column {α : Type} (matrix : Matrix4 α) : Fin 4 → Column α
  | 0 => matrix.first
  | 1 => matrix.second
  | 2 => matrix.third
  | 3 => matrix.fourth

theorem Column.getElem?_toList {α : Type} (column : Column α) :
    ∀ row : Fin 4, column.toList[(row : ℕ)]? = some (column.entry row)
  | 0 | 1 | 2 | 3 => rfl

theorem Matrix4.getElem?_columns {α : Type} (matrix : Matrix4 α) :
    ∀ column : Fin 4, matrix.columns[(column : ℕ)]? = some (matrix.column column)
  | 0 | 1 | 2 | 3 => rfl

namespace Scene

/-! ## Blocks of one size -/

section Blocks

variable {β γ : Type} {encode : β → List γ} {size : ℕ}

/-- Consecutive parts of one size, without what is left over. -/
def records (size : ℕ) (elements : List γ) : List (List γ) :=
  (List.range (elements.length / size)).map fun index ↦ (elements.drop (size * index)).take size

theorem length_blocks (hsize : ∀ content, (encode content).length = size) (contents : List β) :
    (contents.flatMap encode).length = size * contents.length := by
  induction contents with
  | nil => rfl
  | cons content rest ih =>
    rw [List.flatMap_cons, List.length_append, hsize, ih, List.length_cons, Nat.mul_succ,
      Nat.add_comm]

/-- What lies inside a block is part of what the block encodes. -/
theorem take_drop_blocks (hsize : ∀ content, (encode content).length = size)
    {contents : List β} {content : β} {index : ℕ} (hcontent : contents[index]? = some content)
    {start count : ℕ} (hinside : start + count ≤ size) :
    ((contents.flatMap encode).drop (size * index + start)).take count =
      ((encode content).drop start).take count := by
  -- every block before the one in question is skipped as a whole
  induction contents generalizing index with
  | nil => simp at hcontent
  | cons first rest ih =>
    rw [List.flatMap_cons]
    cases index with
    | zero =>
      cases hcontent
      have hlength := hsize content
      rw [Nat.mul_zero, Nat.zero_add, List.drop_append_of_le_length (by omega),
        List.take_append_of_le_length (by rw [List.length_drop]; omega)]
    | succ index =>
      have hplace : size * (index + 1) + start = (encode first).length + (size * index + start) := by
        rw [hsize, Nat.mul_succ]
        omega
      rw [hplace, List.drop_length_add_append]
      exact ih hcontent

theorem records_blocks (hsize : ∀ content, (encode content).length = size) (hpos : 0 < size)
    (contents : List β) : records size (contents.flatMap encode) = contents.map encode := by
  rw [records, length_blocks hsize, Nat.mul_div_cancel_left _ hpos]
  apply List.ext_getElem
  · simp
  · intro index hindex hcontent
    rw [List.length_map] at hcontent
    have hblock := take_drop_blocks hsize (List.getElem?_eq_getElem hcontent) (Nat.zero_add size).le
    rw [Nat.add_zero, List.drop_zero, List.take_of_length_le (hsize _).le] at hblock
    rw [List.getElem_map, List.getElem_map, List.getElem_range, hblock]

end Blocks

/-! ## Words -/

/-- The number that bytes stand for, the least significant first. -/
def littleEndianValue (bytes : List UInt8) : ℕ :=
  bytes.foldr (fun byte value ↦ byte.toNat + 256 * value) 0

/-- The word in the four bytes from an offset on. -/
def wordAt (buffer : List UInt8) (offset : ℕ) : UInt32 :=
  UInt32.ofNat (littleEndianValue ((buffer.drop offset).take 4))

theorem littleEndianValue_littleEndian (bits : UInt32) :
    littleEndianValue (littleEndian bits) = bits.toNat := by
  have hbits := bits.toNat_lt
  simp [littleEndianValue, littleEndian, Nat.shiftRight_eq_div_pow]
  omega

theorem wordAt_littleEndian (bits : UInt32) : wordAt (littleEndian bits) 0 = bits := by
  have hwhole : ((littleEndian bits).drop 0).take 4 = littleEndian bits := rfl
  rw [wordAt, hwhole, littleEndianValue_littleEndian, UInt32.ofNat_toNat]

theorem wordAt_blocks {β : Type} {encode : β → List UInt8} {size : ℕ}
    (hsize : ∀ content, (encode content).length = size) {contents : List β} {content : β}
    {index : ℕ} (hcontent : contents[index]? = some content) {start : ℕ}
    (hinside : start + 4 ≤ size) :
    wordAt (contents.flatMap encode) (size * index + start) = wordAt (encode content) start := by
  rw [wordAt, wordAt, take_drop_blocks hsize hcontent hinside]

theorem wordAt_drop (buffer : List UInt8) (offset start : ℕ) :
    wordAt (buffer.drop offset) start = wordAt buffer (offset + start) := by
  rw [wordAt, wordAt, List.drop_drop]

/-! ## Matrices -/

def columnBytes (column : Column UInt32) : List UInt8 := column.toList.flatMap littleEndian

theorem length_littleEndian (bits : UInt32) : (littleEndian bits).length = 4 := rfl

theorem length_columnBytes (column : Column UInt32) : (columnBytes column).length = 16 := rfl

theorem length_matrixBytes (matrix : Matrix4 UInt32) : (matrixBytes matrix).length = 64 := rfl

theorem matrixBytes_eq (matrix : Matrix4 UInt32) :
    matrixBytes matrix = matrix.columns.flatMap columnBytes :=
  List.flatMap_assoc

theorem wordAt_matrixBytes (matrix : Matrix4 UInt32) (column row : Fin 4) :
    wordAt (matrixBytes matrix) (16 * column + 4 * row) = (matrix.column column).entry row := by
  calc
    _ = wordAt (columnBytes (matrix.column column)) (4 * row + 0) := by
      have hcolumn := matrix.getElem?_columns column
      rw [matrixBytes_eq, wordAt_blocks length_columnBytes hcolumn (by omega), Nat.add_zero]
    _ = wordAt (littleEndian ((matrix.column column).entry row)) 0 :=
      wordAt_blocks length_littleEndian (Column.getElem?_toList _ row) (Nat.le_refl 4)
    _ = _ := wordAt_littleEndian _

/-- The column in the first sixteen bytes. -/
def readColumn (bytes : List UInt8) : Column UInt32 :=
  ⟨wordAt bytes 0, wordAt bytes 4, wordAt bytes 8, wordAt bytes 12⟩

/-- The matrix in the first sixty-four bytes. -/
def readMatrix (bytes : List UInt8) : Matrix4 UInt32 :=
  ⟨readColumn bytes, readColumn (bytes.drop 16), readColumn (bytes.drop 32),
    readColumn (bytes.drop 48)⟩

def readMatrices (buffer : List UInt8) : List (Matrix4 UInt32) := (records 64 buffer).map readMatrix

theorem readColumn_drop (matrix : Matrix4 UInt32) (column : Fin 4) :
    readColumn ((matrixBytes matrix).drop (16 * column)) = matrix.column column := by
  have hword (row : Fin 4) : wordAt ((matrixBytes matrix).drop (16 * column)) (4 * row) =
      (matrix.column column).entry row := by
    rw [wordAt_drop, wordAt_matrixBytes]
  rw [readColumn, Column.mk.injEq]
  exact ⟨hword 0, hword 1, hword 2, hword 3⟩

theorem readMatrix_matrixBytes (matrix : Matrix4 UInt32) :
    readMatrix (matrixBytes matrix) = matrix := by
  have hcolumn := readColumn_drop matrix
  rw [readMatrix, Matrix4.mk.injEq]
  exact ⟨hcolumn 0, hcolumn 1, hcolumn 2, hcolumn 3⟩

theorem readMatrices_patternBytes (patterns : List (Matrix4 UInt32)) :
    readMatrices (patternBytes patterns) = patterns := by
  rw [readMatrices, patternBytes, records_blocks length_matrixBytes (by decide), List.map_map]
  exact (List.map_congr_left fun matrix _ ↦ readMatrix_matrixBytes matrix).trans (List.map_id _)

theorem patternBytes_injective : Function.Injective patternBytes :=
  Function.LeftInverse.injective readMatrices_patternBytes

/-! ## Buffers -/

/-- A buffer that holds matrices of patterns, one after another in records of sixty-four bytes, and
nothing else. -/
structure Holds (buffer : List UInt8) (patterns : List (Matrix4 UInt32)) : Prop where
  length_eq : buffer.length = 64 * patterns.length
  wordAt_eq : ∀ (index : ℕ) (matrix : Matrix4 UInt32), patterns[index]? = some matrix →
    ∀ column row : Fin 4,
      wordAt buffer (64 * index + 16 * column + 4 * row) = (matrix.column column).entry row
  read_eq : readMatrices buffer = patterns

theorem holds_patternBytes (patterns : List (Matrix4 UInt32)) :
    Holds (patternBytes patterns) patterns where
  length_eq := length_blocks length_matrixBytes patterns
  wordAt_eq := by
    intro index matrix hmatrix column row
    rw [patternBytes, Nat.add_assoc, wordAt_blocks length_matrixBytes hmatrix (by omega),
      wordAt_matrixBytes]
  read_eq := readMatrices_patternBytes patterns

/-- A number is known by its pattern. -/
theorem map_ofBits_bitPatterns (batch : List (Matrix4 Float32)) :
    (bitPatterns batch).map (Matrix4.map Float32.ofBits) = batch := by
  rw [bitPatterns, List.map_map]
  refine (List.map_congr_left fun matrix _ ↦ ?_).trans (List.map_id _)
  simp [Matrix4.map, Column.map, Float32.ofBits_toBits]

namespace Batches

/-- Each of the two buffers holds the matrices of its batch, whatever their entries are, and
different matrices have different buffers. Batches of numbers are uploaded as their patterns, and the
patterns that are read back are those of the numbers. -/
theorem buffers_hold_their_batches :
    (∀ batches : Batches UInt32,
      Holds batches.upload.1 batches.branches ∧ Holds batches.upload.2 batches.ornaments) ∧
    (∀ first second : List (Matrix4 UInt32), first ≠ second →
      patternBytes first ≠ patternBytes second) ∧
    ∀ batches : Batches Float32,
      (bufferBytes batches.branches, bufferBytes batches.ornaments) = batches.bitPatterns.upload ∧
      ∀ mesh, (readMatrices (bufferBytes (batches.get mesh))).map (Matrix4.map Float32.ofBits) =
        batches.get mesh := by
  refine ⟨?_, fun _ _ ↦ patternBytes_injective.ne, ?_⟩
  · intro batches
    exact ⟨holds_patternBytes batches.branches, holds_patternBytes batches.ornaments⟩
  · intro batches
    refine ⟨rfl, fun mesh ↦ ?_⟩
    rw [bufferBytes, readMatrices_patternBytes, map_ofBits_bitPatterns]

/-- Twice the same column, the zero column and a column with two patterns that are not numbers. -/
def unevenPatterns : Matrix4 UInt32 :=
  ⟨⟨1, 2, 3, 4⟩, ⟨1, 2, 3, 4⟩, ⟨0, 0, 0, 0⟩, ⟨0x7FC00000, 0x3F800000, 0x7FA00001, 0xBF800000⟩⟩

def transposedPatterns : Matrix4 UInt32 :=
  ⟨⟨1, 1, 0, 0x7FC00000⟩, ⟨2, 2, 0, 0x3F800000⟩, ⟨3, 3, 0, 0x7FA00001⟩, ⟨4, 4, 0, 0xBF800000⟩⟩

/-- The pattern in the third row of the last column of the second matrix, and a batch that cannot
be mistaken for its transpose. -/
theorem buffers_hold_their_batches_uneven :
    wordAt (upload ⟨[transposedPatterns, unevenPatterns], []⟩).1 120 = 0x7FA00001 ∧
    (upload ⟨[transposedPatterns, unevenPatterns], []⟩).2.length = 0 ∧
    patternBytes [unevenPatterns] ≠ patternBytes [transposedPatterns] := by
  obtain ⟨hholds, hdiffer, -⟩ := buffers_hold_their_batches
  obtain ⟨hbranches, hornaments⟩ := hholds ⟨[transposedPatterns, unevenPatterns], []⟩
  exact ⟨hbranches.wordAt_eq 1 unevenPatterns rfl 3 2, hornaments.length_eq,
    hdiffer _ _ (by decide)⟩

end Batches

end Scene

end PlantGrowth
