import SealedContent.Proofs.Archive.Stacks
import SealedContent.Proofs.Storage.Taking
import SealedContent.Proofs.Text.Utf8

/-! # Written archive tables

The writers of archives place the data and the names of their files in the same way (`ArchiveTable.rows`). From any
place where such an archive stands its table is read with the names of the files (`ArchiveTable.takes_image`), and
what is opened for a row are the data of its file (`ArchiveTable.readAll_image`).
-/

namespace SealedContent

open Workspace (Steps)

/-- Text up to a zero byte is read wherever it stands. -/
theorem Bytes.terminatedAt_eq {bytes text : Bytes} {offset : Nat} (clean : 0 ∉ text)
    (stands : bytes.window offset (text.length + 1) = text ++ [0]) : bytes.terminatedAt offset = .ok text := by
  have split := List.take_append_drop (text.length + 1) (bytes.drop offset)
  rw [← window, stands, List.append_assoc, List.singleton_append] at split
  -- nothing stands behind the end, but the zero does
  have inside : ¬ bytes.length < offset := by
    intro beyond
    rw [List.drop_eq_nil_of_le (Nat.le_of_lt beyond)] at split
    simp at split
  have kept : ∀ b ∈ text, (b != 0) = true := fun b member => bne_iff_ne.mpr fun zero => clean (zero ▸ member)
  rw [terminatedAt, if_neg inside, ← split]
  dsimp only
  rw [if_pos (by simp), List.takeWhile_append_of_pos kept]
  simp

namespace ArchiveTable

/-! ## Rows -/

/-- A file with where its data and its name stand. -/
structure Row where
  file : String × Bytes
  offset : Nat
  nameOffset : Nat

def rows (files : List (String × Bytes)) : List Row :=
  (placed (fun file : String × Bytes => file.2.length) 0 files).zipWith
    (fun (file, offset) (_, nameOffset) => ⟨file, offset, nameOffset⟩)
    (placed (fun file : String × Bytes => (terminated file.1).length) 0 files)

/-- The names of the files one behind the other. -/
def names (files : List (String × Bytes)) : Bytes := files.flatMap fun file => terminated file.1

/-- The data of the files one behind the other. -/
def contents (files : List (String × Bytes)) : Bytes := files.flatMap (·.2)

variable {files : List (String × Bytes)} {row : Row}

theorem stacked_rows (files : List (String × Bytes)) :
    Stacked Row.offset (fun row => row.file.2.length) 0 (rows files) ∧
      Stacked Row.nameOffset (fun row => (terminated row.file.1).length) 0 (rows files) ∧
      (rows files).map Row.file = files :=
  @stacked_zipWith_placed _ _ Row.file Row.offset Row.nameOffset (fun file => file.2.length)
    (fun file => (terminated file.1).length) Row.mk (fun _ _ _ => ⟨rfl, rfl, rfl⟩) 0 0 files

theorem map_rows (files : List (String × Bytes)) : (rows files).map Row.file = files := (stacked_rows files).2.2

theorem length_rows (files : List (String × Bytes)) : (rows files).length = files.length := by
  conv_rhs => rw [← map_rows files, List.length_map]

theorem mem_of_mem_rows (member : row ∈ rows files) : row.file ∈ files := by
  rw [← map_rows files]
  exact List.mem_map_of_mem member

/-- What holds of each row and its file holds of what is made of the rows and the files. -/
theorem forall₂_rows {α : Type} {R : α → String × Bytes → Prop} {make : Row → α}
    (each : ∀ row ∈ rows files, R (make row) row.file) : List.Forall₂ R ((rows files).map make) files := by
  have paired : List.Forall₂ R ((rows files).map make) ((rows files).map Row.file) :=
    List.forall₂_map_left_iff.mpr (List.forall₂_map_right_iff.mpr (List.forall₂_same.mpr each))
  rwa [map_rows] at paired

/-- The first row of a name is that of the first file. -/
theorem find?_rows (files : List (String × Bytes)) (name : String) :
    ((rows files).find? fun row => row.file.1 == name).map Row.file = files.find? (·.1 == name) := by
  conv_rhs => rw [← map_rows files, List.find?_map]
  rfl

/-- The data of a file stand where its row says. -/
theorem stands_contents (member : row ∈ rows files) : row.offset + row.file.2.length ≤ (contents files).length ∧
    (contents files).window row.offset row.file.2.length = row.file.2 := by
  have stands := (stacked_rows files).1.stands_flatMap (fun row => row.file.2) (fun _ => rfl) member
  have whole : ((rows files).flatMap fun row => row.file.2) = contents files := by
    conv_rhs => rw [← map_rows files, contents, List.flatMap_map]
  rwa [whole] at stands

/-- The name of a file stands where its row says. -/
theorem stands_names (member : row ∈ rows files) :
    row.nameOffset + (terminated row.file.1).length ≤ (names files).length ∧
      (names files).window row.nameOffset (terminated row.file.1).length = terminated row.file.1 := by
  have stands := (stacked_rows files).2.1.stands_flatMap (fun row => terminated row.file.1) (fun _ => rfl) member
  have whole : ((rows files).flatMap fun row => terminated row.file.1) = names files := by
    conv_rhs => rw [← map_rows files, names, List.flatMap_map]
  rwa [whole] at stands

/-- A name without zeros is read at its offset, whatever follows the names. -/
theorem terminatedAt_names (member : row ∈ rows files) (clean : '\x00' ∉ row.file.1.toList) (filler : Bytes) :
    (names files ++ filler).terminatedAt row.nameOffset = .ok (Utf8.encode row.file.1) := by
  obtain ⟨inside, stands⟩ := stands_names member
  have absent : 0 ∉ Utf8.encode row.file.1 := Utf8.not_mem_encode (by decide) clean
  refine Bytes.terminatedAt_eq absent ?_
  have long : (terminated row.file.1).length = (Utf8.encode row.file.1).length + 1 := by simp [terminated]
  rw [← long, Bytes.window_append_left inside, stands, terminated]

/-! ## Tables -/

variable {File : Type} {nodes : List Storage} {magic : String} {entrySize : Nat}
  {entry : ReaderM (Nat × (String → File))} {piece : Row → Bytes} {make : Row → String → File} {filler : Bytes}

/-- With the strings of the written names every entry gets its name. -/
theorem consumes_names (clean : ∀ file ∈ files, '\x00' ∉ file.1.toList) :
    Consumes nodes (((rows files).map fun row => (row.nameOffset, make row)).mapM fun (offset, named) => do
      return named (Utf8.decodeLossy (← (names files ++ filler).terminatedAt offset)) : ReaderM (List File)) []
      ((rows files).map fun row => make row row.file.1) := by
  have each : ∀ row ∈ rows files, Consumes nodes (do
      return make row (Utf8.decodeLossy (← (names files ++ filler).terminatedAt row.nameOffset)) : ReaderM File) []
      (make row row.file.1) := by
    intro row member
    rw [terminatedAt_names member (clean _ (mem_of_mem_rows member))]
    have name := (@Consumes.lift _ nodes (Utf8.encode row.file.1)).map fun text => make row (Utf8.decodeLossy text)
    rwa [Utf8.decodeLossy_encode] at name
  have all := Consumes.mapM each
  rw [List.mapM_map]
  have nothing : ((rows files).flatMap fun _ => ([] : Bytes)) = [] := by simp
  rwa [nothing] at all

/-- What stands in front of the data. -/
def header (magic : String) (entries : List Bytes) (names : Bytes) : Bytes :=
  .ofAscii magic ++ LittleEndian.encode 4 entries.length ++ LittleEndian.encode 4 names.length ++ .zeros 4
    ++ entries.flatten ++ names

theorem length_header {strings : Bytes} (long : magic.length = 4) (sized : ∀ row, (piece row).length = entrySize) :
    (header magic ((rows files).map piece) strings).length =
      headerSize + files.length * entrySize + strings.length := by
  have whole : ((rows files).map piece).flatten.length = files.length * entrySize := by
    rw [length_flatten_pieces entrySize (by simp [sized]), List.length_map, length_rows]
  simp only [header, List.length_append, Bytes.ofAscii, List.length_map, String.length_toList, long,
    LittleEndian.length_encode, Bytes.length_zeros, whole, headerSize]

/-- An archive between other bytes. -/
theorem image_between (before : Bytes) (entries : List Bytes) (names data after : Bytes) :
    before ++ image magic entries names data ++ after = before ++ header magic entries names ++ (data ++ after) := by
  have split : image magic entries names data = header magic entries names ++ data := rfl
  rw [split, List.append_assoc, List.append_assoc, List.append_assoc]

/-- The header of a written archive is read wherever the archive stands. -/
theorem takes_image (graph : Coherent nodes) {node : Storage} (member : node ∈ nodes) {before after : Bytes}
    (holds : node.Holds
      (before ++ image magic ((rows files).map piece) (names files ++ filler) (contents files) ++ after))
    (few : files.length < 256 ^ 4) (short : (names files ++ filler).length < 256 ^ 4)
    (clean : ∀ file ∈ files, '\x00' ∉ file.1.toList) (long : magic.length = 4)
    (sized : ∀ row, (piece row).length = entrySize)
    (entries : ∀ row ∈ rows files, Consumes nodes entry (piece row) (row.nameOffset, make row)) :
    ∃ stop, Takes (Remembers nodes) node before.length (read magic entrySize entry)
      ⟨(rows files).map fun row => make row row.file.1,
        before.length + (header magic ((rows files).map piece) (names files ++ filler)).length⟩ stop := by
  rw [length_header long sized, ← Nat.add_assoc, ← Nat.add_assoc, ← length_rows files]
  rw [← length_rows files] at few
  -- the fields in the order in which they are taken, and nothing for the names that are cut out of the strings
  let fields := Bytes.ofAscii magic ++ (LittleEndian.encode 4 (rows files).length ++
    (LittleEndian.encode 4 (names files ++ filler).length ++ (Bytes.zeros 4 ++ ((rows files).flatMap piece ++
    (names files ++ filler ++ [])))))
  have same : header magic ((rows files).map piece) (names files ++ filler) = fields := by
    simp only [header, fields, List.length_map, List.flatMap_def, List.append_assoc, List.append_nil]
  rw [image_between, same] at holds
  refine ⟨before.length + fields.length, .bind .position ?_⟩
  refine (?_ : Consumes nodes _ fields _) node member before (contents files ++ after) holds
  exact .bind (.magic graph magic) <| .bind (.number graph few) <| .bind (.number graph short) <|
    .bind (.skip graph (Bytes.zeros 4)) <| .bind (.repeated entries) <| .bind (.field graph _) <|
    .bind (consumes_names clean) (.pure _)

/-- What is opened for a row of a written archive is a window with the data of its file. -/
theorem window_image {content : Storage} {before after strings : Bytes}
    (holds : content.Holds (before ++ image magic ((rows files).map piece) strings (contents files) ++ after))
    {table : ArchiveTable File}
    (start : table.dataOffset = before.length + (header magic ((rows files).map piece) strings).length)
    (short : content.size < UInt64.size) (among : row ∈ rows files) (name : String) :
    ∃ cut, table.window content ⟨name, row.offset, row.file.2.length⟩ = .ok cut ∧ cut.Holds row.file.2 := by
  obtain ⟨inside, stands⟩ := stands_contents among
  rw [image_between] at holds
  rw [← List.length_append] at start
  have data : Bytes.window (before ++ header magic ((rows files).map piece) strings ++ (contents files ++ after))
      (table.dataOffset + row.offset) row.file.2.length = row.file.2 := by
    rw [start, Bytes.window_append_right, Bytes.window_append_left inside, stands]
  have fits : table.dataOffset + row.offset + row.file.2.length ≤ content.size := by
    simp only [holds.size, start, List.length_append]
    omega
  obtain ⟨cut, made⟩ := window_ok fits
  refine ⟨cut, ?_, data ▸ holds.window made⟩
  have exact : table.dataOffset + row.offset < UInt64.size := by omega
  rw [window, windowBehind_eq exact, made]

/-- What is opened for a row of a written archive are the data of its file, whatever is done from a workspace on. -/
theorem readAll_image {w later : Workspace} (sound : w.Sound) {content : Storage} (member : content ∈ w.nodes)
    {before after strings : Bytes}
    (holds : content.Holds (before ++ image magic ((rows files).map piece) strings (contents files) ++ after))
    {table : ArchiveTable File}
    (start : table.dataOffset = before.length + (header magic ((rows files).map piece) strings).length)
    (among : row ∈ rows files) (name : String) (steps : Steps w later) :
    (do (← table.window content ⟨name, row.offset, row.file.2.length⟩).readAll : SessionM Bytes).result later.session =
      .ok row.file.2 := by
  obtain ⟨cut, made, whole⟩ := window_image holds start (sound.graph.size_lt _ member) among name
  rw [made]
  have laterSound := (steps.sound sound).slice (steps.nodes_subset _ member) (window_of_windowBehind made)
  have reads := whole.readAll laterSound (.head _)
  exact reads

end ArchiveTable

end SealedContent
