import SealedContent.Archive.HashedPartition
import SealedContent.Proofs.Archive.Table

/-! # Written hashed partitions are read back

A written partition is read from any node that holds its bytes, with anything behind them (`ofStorage_answers`). It
lists the given files in their order, opens each of them to its contents and finds their hashes valid
(`recovers_written`).
-/

namespace SealedContent

open Workspace (Steps)

namespace HashedPartition

open ArchiveTable (Row rows names contents header)

variable {files : List (String × Bytes)} {hashed : Nat} {row : Row} {content : Storage} {after : Bytes}

/-! ## The parts of a partition -/

def rowBytes (hashed : Nat) (row : Row) : Bytes :=
  entryBytes row.offset row.file.2.length row.nameOffset (min hashed row.file.2.length)
    (Sha256.digest (row.file.2.take hashed))

/-- What a row is read as. -/
def listed (hashed : Nat) (row : Row) : HashedFile where
  name := row.file.1
  offset := row.offset
  size := row.file.2.length
  hashed := min hashed row.file.2.length
  digest := Sha256.digest (row.file.2.take hashed)

/-- The names end where they should, and what a partition counts has room in its fields of 32 bits. -/
structure Fits (files : List (String × Bytes)) (hashed : Nat) : Prop where
  clean : ∀ file ∈ files, '\x00' ∉ file.1.toList
  count : files.length < 2 ^ 32
  names : (names files).length < 2 ^ 32
  covered : ∀ file ∈ files, min hashed file.2.length < 2 ^ 32

instance (files : List (String × Bytes)) (hashed : Nat) : Decidable (Fits files hashed) :=
  decidable_of_iff ((∀ file ∈ files, '\x00' ∉ file.1.toList) ∧ files.length < 2 ^ 32 ∧
      (names files).length < 2 ^ 32 ∧ ∀ file ∈ files, min hashed file.2.length < 2 ^ 32)
    ⟨fun ⟨clean, count, names, covered⟩ => ⟨clean, count, names, covered⟩,
      fun ⟨clean, count, names, covered⟩ => ⟨clean, count, names, covered⟩⟩

theorem image_eq (files : List (String × Bytes)) (hashed : Nat) : image files hashed =
    ArchiveTable.image magic ((rows files).map (rowBytes hashed)) (names files ++ []) (contents files) := by
  rw [rows, List.map_zipWith, List.append_nil]
  rfl

/-- Where the data start. -/
def dataStart (files : List (String × Bytes)) (hashed : Nat) : Nat :=
  (header magic ((rows files).map (rowBytes hashed)) (names files ++ [])).length

/-- The table of a written partition that stands behind `start` bytes. -/
def tableAt (start : Nat) (files : List (String × Bytes)) (hashed : Nat) : ArchiveTable HashedFile :=
  ⟨(rows files).map (listed hashed), start + dataStart files hashed⟩

theorem length_rowBytes (hashed : Nat) (row : Row) : (rowBytes hashed row).length = entrySize :=
  length_entryBytes _ _ _ _ (Sha256.length_digest _)

/-! ## Reading -/

theorem consumes_entry {nodes : List Storage} (graph : Coherent nodes) {offset size nameOffset covered : Nat}
    {digest : Bytes} (offsetShort : offset < 256 ^ 8) (sizeShort : size < 256 ^ 8)
    (nameShort : nameOffset < 256 ^ 4) (coveredShort : covered < 256 ^ 4) (long : digest.length = Sha256.size) :
    Consumes nodes entry (entryBytes offset size nameOffset covered digest)
      (nameOffset, fun name => ⟨⟨name, offset, size⟩, covered, digest⟩) := by
  have split : entryBytes offset size nameOffset covered digest =
      LittleEndian.encode 8 offset ++ (LittleEndian.encode 8 size ++ (LittleEndian.encode 4 nameOffset ++
        (LittleEndian.encode 4 covered ++ (Bytes.zeros 8 ++ (digest ++ []))))) := by
    simp only [entryBytes, List.append_assoc, List.append_nil]
  have whole := Consumes.exactly graph digest
  rw [long] at whole
  rw [split]
  exact .bind (.number graph offsetShort) <| .bind (.number graph sizeShort) <| .bind (.number graph nameShort) <|
    .bind (.number graph coveredShort) <| .bind (.skip graph (Bytes.zeros 8)) <| .bind whole (.pure _)

/-- The fields of every row have room in an entry. -/
theorem consumes_row {nodes : List Storage} (graph : Coherent nodes) (fits : Fits files hashed)
    (small : (contents files).length < 256 ^ 8) (among : row ∈ rows files) :
    Consumes nodes entry (rowBytes hashed row) (row.nameOffset, fun name =>
      ⟨⟨name, row.offset, row.file.2.length⟩, min hashed row.file.2.length,
        Sha256.digest (row.file.2.take hashed)⟩) := by
  obtain ⟨data, -⟩ := ArchiveTable.stands_contents among
  obtain ⟨name, -⟩ := ArchiveTable.stands_names among
  -- a name has its zero at least, so that even the last one starts inside the names
  have positive : 0 < (ArchiveTable.terminated row.file.1).length := by simp [ArchiveTable.terminated]
  have names := fits.names
  exact consumes_entry graph (by omega) (by omega) (by omega) (fits.covered _ (ArchiveTable.mem_of_mem_rows among))
    (Sha256.length_digest _)

/-- The table of a written partition is read wherever it stands. -/
theorem takes_written {nodes : List Storage} (graph : Coherent nodes) (member : content ∈ nodes) {before : Bytes}
    (holds : content.Holds (before ++ image files hashed ++ after)) (fits : Fits files hashed) :
    ∃ stop, Takes (Remembers nodes) content before.length readTable (tableAt before.length files hashed) stop := by
  have small : (contents files).length < 256 ^ 8 := by
    have sized := graph.size_lt content member
    rw [holds.size, image_eq, ArchiveTable.image] at sized
    simp only [List.length_append, UInt64.size] at sized
    omega
  rw [image_eq] at holds
  have names := fits.names
  rw [← List.append_nil (ArchiveTable.names files)] at names
  exact ArchiveTable.takes_image graph member holds fits.count names fits.clean rfl (length_rowBytes hashed)
    fun row among => consumes_row graph fits small among

/-- What is read from a node with a written partition at its start. -/
def written (content : Storage) (files : List (String × Bytes)) (hashed : Nat) : HashedPartition :=
  ⟨content, tableAt 0 files hashed⟩

theorem ofStorage_answers {nodes : List Storage} (graph : Coherent nodes) (member : content ∈ nodes)
    (holds : content.Holds (image files hashed ++ after)) (fits : Fits files hashed) :
    Answers (Remembers nodes) (ofStorage content) (.ok (written content files hashed)) := by
  have start : content.Holds ([] ++ image files hashed ++ after) := holds
  obtain ⟨stop, takes⟩ := takes_written graph member start fits
  exact takes.run'.step (.pure _)

/-! ## Files -/

/-- The first file of a name is found. -/
theorem tableFile?_eq (start : Nat) (files : List (String × Bytes)) (hashed : Nat) (name : String) :
    tableFile? (tableAt start files hashed) name =
      (files.findIdx? (·.1 == name)).bind ((tableAt start files hashed).files[·]?) := by
  have same : ((rows files).map (listed hashed)).findIdx? (·.name == name) = files.findIdx? (·.1 == name) := by
    conv_rhs => rw [← ArchiveTable.map_rows files]
    rw [List.findIdx?_map, List.findIdx?_map]
    rfl
  rw [tableFile?, List.find?_eq_bind_findIdx?_getElem?, tableAt, same]

theorem openFile_written (holds : content.Holds (image files hashed ++ after)) (short : content.size < UInt64.size)
    (among : row ∈ rows files) :
    ∃ cut, (written content files hashed).openFile (listed hashed row) = .ok cut ∧ cut.Holds row.file.2 := by
  have start : content.Holds ([] ++ image files hashed ++ after) := holds
  rw [image_eq] at start
  exact ArchiveTable.window_image start rfl short among row.file.1

/-- A file of the partition is listed with its name, its size and how much of it is hashed. It opens to its contents
    and is valid, whatever is done from a workspace on. -/
structure Recovers (w : Workspace) (partition : HashedPartition) (hashed : Nat) (listed : HashedFile)
    (file : String × Bytes) : Prop where
  name : listed.name = file.1
  size : listed.size = file.2.length
  covered : listed.covered = min hashed file.2.length
  opens : ∀ later, Steps w later →
    (do (← partition.openFile listed).readAll : SessionM Bytes).result later.session = .ok file.2
  valid : ∀ later, Steps w later → (partition.verifyFile listed).result later.session = .ok .valid

/-- The partition recovers the files in their order, and finds the first of those with a name. -/
structure RecoversAll (w : Workspace) (partition : HashedPartition) (files : List (String × Bytes)) (hashed : Nat) :
    Prop where
  each : List.Forall₂ (Recovers w partition hashed) partition.table.files files
  first : ∀ name, partition.file? name = (files.findIdx? (·.1 == name)).bind (partition.table.files[·]?)

/-- A written partition recovers its files from a node that can be made again at any time. -/
theorem recovers_written {w : Workspace} (holds : content.Holds (image files hashed ++ after))
    (made : ∀ later, Steps w later → ∃ nodes, content ∈ nodes ∧ Workspace.Sound ⟨nodes, later.session⟩) :
    RecoversAll w (written content files hashed) files hashed := by
  obtain ⟨nodes, member, sound⟩ := made w .refl
  have short := sound.graph.size_lt content member
  refine ⟨ArchiveTable.forall₂_rows fun row among => ?_, tableFile?_eq 0 files hashed⟩
  obtain ⟨cut, opened, whole⟩ := openFile_written holds short among
  have covered : (listed hashed row).covered = min hashed row.file.2.length := Nat.min_eq_left (Nat.min_le_right ..)
  refine ⟨rfl, rfl, covered, fun later steps => ?_, fun later steps => ?_⟩
  · obtain ⟨nodes, member, sound⟩ := made later steps
    have reads := whole.readAll (sound.slice member (window_of_windowBehind opened)) (.head _)
    rw [opened]
    exact reads
  · obtain ⟨nodes, member, sound⟩ := made later steps
    have inside : 0 + min hashed row.file.2.length ≤ row.file.2.length := by
      rw [Nat.zero_add]
      exact Nat.min_le_right ..
    have read := whole.read (sound.slice member (window_of_windowBehind opened)) (.head _) inside
    rw [Bytes.window, List.drop_zero, ← List.take_eq_take_min] at read
    have digest : Sha256.digest (row.file.2.take hashed) = (listed hashed row).digest := rfl
    simp only [verifyFile, opened, SessionM.lift_ok_bind, covered]
    refine (SessionM.result_bind_ok read _).trans ?_
    rw [if_pos digest]
    rfl

/-- A partition that was written is read back from any storage that begins with its bytes. -/
theorem recovers_stored {w : Workspace} (reached : Steps {} w) (member : content ∈ w.nodes)
    (reads : content.readAll.result w.session = .ok (image files hashed ++ after)) (fits : Fits files hashed) :
    ∃ partition, (ofStorage content).result w.session = .ok partition ∧
      RecoversAll (w.left (ofStorage content)) partition files hashed := by
  have sound := Workspace.sound_of_steps reached
  have holds := Storage.Holds.of_readAll reached member reads
  obtain ⟨gives, remembers⟩ := ofStorage_answers sound.graph member holds fits _ sound.remembers
  have left : (w.left (ofStorage content)).Sound := ⟨sound.graph, remembers⟩
  exact ⟨_, gives, recovers_written holds fun later steps =>
    ⟨_, steps.nodes_subset _ member, steps.sound left⟩⟩

end HashedPartition

end SealedContent
