import SealedContent.Archive.Partition
import SealedContent.Proofs.Archive.Table
import SealedContent.Proofs.Storage.Parsing

/-! # Written partitions are read back

A written partition is read from any storage that gives its bytes. It lists the given files in their order, opens each
of them to its contents, and starts its data at a multiple of `0x20`: `recovers_image`.
-/

namespace SealedContent

open Workspace (Steps)

namespace Partition

open ArchiveTable (Row rows names contents header headerSize)

variable {files : List (String × Bytes)} {row : Row}

/-! ## The parts of a partition -/

def rowBytes (row : Row) : Bytes := entryBytes row.offset row.file.2.length row.nameOffset

/-- What a row is read as. -/
def listed (row : Row) : ArchiveFile := ⟨row.file.1, row.offset, row.file.2.length⟩

/-- The names of the files, filled up for the data behind them. -/
def strings (files : List (String × Bytes)) : Bytes :=
  names files ++ .zeros (Bytes.padding 0x20 (headerSize + files.length * entrySize + (names files).length))

/-- The fields of a table for the number of files and for the size of its strings have 32 bits. -/
structure Short (files : List (String × Bytes)) : Prop where
  count : files.length < 2 ^ 32
  names : (strings files).length < 2 ^ 32

theorem image_eq (files : List (String × Bytes)) :
    image files = ArchiveTable.image magic ((rows files).map rowBytes) (strings files) (contents files) := by
  rw [rows, List.map_zipWith]
  rfl

/-- Where the data start. -/
def dataStart (files : List (String × Bytes)) : Nat := (header magic ((rows files).map rowBytes) (strings files)).length

theorem length_rowBytes (row : Row) : (rowBytes row).length = entrySize := length_entryBytes _ _ _

theorem dvd_dataStart (files : List (String × Bytes)) : 0x20 ∣ dataStart files := by
  rw [dataStart, ArchiveTable.length_header rfl length_rowBytes, strings, List.length_append, Bytes.length_zeros,
    ← Nat.add_assoc]
  exact Bytes.dvd_add_padding (by decide) _

/-! ## Reading -/

theorem consumes_entry {nodes : List Storage} (graph : Coherent nodes) {offset size nameOffset : Nat}
    (offsetShort : offset < 256 ^ 8) (sizeShort : size < 256 ^ 8) (nameShort : nameOffset < 256 ^ 4) :
    Consumes nodes entry (entryBytes offset size nameOffset) (nameOffset, fun name => ⟨name, offset, size⟩) := by
  have split : entryBytes offset size nameOffset = LittleEndian.encode 8 offset ++ (LittleEndian.encode 8 size ++
      (LittleEndian.encode 4 nameOffset ++ (Bytes.zeros 4 ++ []))) := by
    simp only [entryBytes, List.append_assoc, List.append_nil]
  rw [split]
  exact .bind (.number graph offsetShort) <| .bind (.number graph sizeShort) <| .bind (.number graph nameShort) <|
    .bind (.skip graph (Bytes.zeros 4)) (.pure _)

/-- A partition at the start of a node, as an archive with nothing around it. -/
theorem holds_between {content : Storage} (holds : content.Holds (image files)) :
    content.Holds
      ([] ++ ArchiveTable.image magic ((rows files).map rowBytes) (strings files) (contents files) ++ []) := by
  rwa [List.append_nil, List.nil_append, ← image_eq]

/-- The fields of every row have room in an entry. -/
theorem consumes_row {nodes : List Storage} (graph : Coherent nodes) (short : Short files)
    (fits : (contents files).length < 256 ^ 8) (among : row ∈ rows files) :
    Consumes nodes entry (rowBytes row) (row.nameOffset, fun name => ⟨name, row.offset, row.file.2.length⟩) := by
  obtain ⟨data, -⟩ := ArchiveTable.stands_contents among
  obtain ⟨name, -⟩ := ArchiveTable.stands_names among
  -- a name has its zero at least, so that even the last one starts inside the strings
  have positive : 0 < (ArchiveTable.terminated row.file.1).length := by simp [ArchiveTable.terminated]
  have strings := short.names
  rw [Partition.strings, List.length_append] at strings
  exact consumes_entry graph (by omega) (by omega) (by omega)

/-- A partition is read from any node that holds its bytes. -/
theorem ofStorage_answers {nodes : List Storage} (graph : Coherent nodes) {content : Storage}
    (member : content ∈ nodes) (holds : content.Holds (image files)) (clean : ∀ file ∈ files, '\x00' ∉ file.1.toList)
    (short : Short files) :
    Answers (Remembers nodes) (ofStorage content) (.ok ⟨content, (rows files).map listed, dataStart files⟩) := by
  have fits : (contents files).length < 256 ^ 8 := by
    have sized := graph.size_lt content member
    rw [holds.size, image_eq, ArchiveTable.image, List.length_append] at sized
    exact Nat.lt_of_le_of_lt (Nat.le_add_left _ _) sized
  obtain ⟨stop, takes⟩ := ArchiveTable.takes_image graph member (holds_between holds) short.count short.names clean rfl
    length_rowBytes fun row among => consumes_row graph short fits among
  rw [List.length_nil, Nat.zero_add] at takes
  exact takes.run'.step (.pure _)

/-- A file of the partition is listed with its name and size and opens to its contents, whatever is done from a
    workspace on. -/
def Recovers (w : Workspace) (partition : Partition) (listed : ArchiveFile) (file : String × Bytes) : Prop :=
  listed.name = file.1 ∧ listed.size = file.2.length ∧
    ∀ later, Steps w later →
      (do (← partition.openFile listed).readAll : SessionM Bytes).result later.session = .ok file.2

/-- A partition that was written is read back from any storage that gives its bytes. It lists the given files in
    their order, finds the first of those with a name, and its data are aligned. -/
theorem recovers_image {w : Workspace} (reached : Steps {} w) {content : Storage} (member : content ∈ w.nodes)
    (reads : content.readAll.result w.session = .ok (image files))
    (clean : ∀ file ∈ files, '\x00' ∉ file.1.toList) (short : Short files) :
    ∃ partition, (ofStorage content).result w.session = .ok partition ∧
      List.Forall₂ (Recovers (w.left (ofStorage content)) partition) partition.table.files files ∧
      (∀ name, partition.file? name = (files.findIdx? (·.1 == name)).bind (partition.table.files[·]?)) ∧
      0x20 ∣ partition.table.dataOffset := by
  have sound := Workspace.sound_of_steps reached
  have holds := Storage.Holds.of_readAll reached member reads
  obtain ⟨gives, remembers⟩ := ofStorage_answers sound.graph member holds clean short _ sound.remembers
  have after : (w.left (ofStorage content)).Sound := ⟨sound.graph, remembers⟩
  refine ⟨_, gives, ?_, fun name => ?_, dvd_dataStart files⟩
  · have each : List.Forall₂ (Recovers (w.left (ofStorage content)) ⟨content, (rows files).map listed, dataStart files⟩)
        ((rows files).map listed) ((rows files).map Row.file) := by
      refine List.forall₂_map_left_iff.mpr (List.forall₂_map_right_iff.mpr (List.forall₂_same.mpr fun row among => ?_))
      refine ⟨rfl, rfl, fun later steps => ?_⟩
      exact ArchiveTable.readAll_image after member (holds_between holds) (Nat.zero_add _).symm among _ steps
    rwa [ArchiveTable.map_rows] at each
  · have same : ((rows files).map listed).findIdx? (·.name == name) = files.findIdx? (·.1 == name) := by
      conv_rhs => rw [← ArchiveTable.map_rows files]
      rw [List.findIdx?_map, List.findIdx?_map]
      rfl
    rw [file?, List.find?_eq_bind_findIdx?_getElem?, same]

/-- Two files of one name and an empty one without a name. -/
def sampleFiles : List (String × Bytes) := [("é", [1, 2]), ("", []), ("é", [3])]

theorem recovers_image_sample :
    let content := Storage.ofBytes (image sampleFiles)
    let w := Workspace.add {} content
    Steps {} w ∧ content ∈ w.nodes ∧ content.readAll.result w.session = .ok (image sampleFiles) ∧
    (∀ file ∈ sampleFiles, '\x00' ∉ file.1.toList) ∧ Short sampleFiles ∧
    ∃ partition, (ofStorage content).result w.session = .ok partition ∧
      partition.file? "é" = partition.table.files[0]? ∧ partition.file? "" = partition.table.files[1]? ∧
      partition.file? "e" = none ∧ partition.table.files.length = 3 := by
  intro content w
  have checked : (sampleFiles.length < 2 ^ 32 ∧ (strings sampleFiles).length < 2 ^ 32) ∧
      (image sampleFiles).length < UInt64.size ∧ (∀ file ∈ sampleFiles, '\x00' ∉ file.1.toList) ∧
      sampleFiles.findIdx? (·.1 == "é") = some 0 ∧ sampleFiles.findIdx? (·.1 == "") = some 1 ∧
      sampleFiles.findIdx? (·.1 == "e") = none := by decide +kernel
  obtain ⟨⟨count, names⟩, small, clean, first, second, absent⟩ := checked
  have reached : Steps {} w := .step .refl (.memory (by rwa [List.size_toArray]))
  have member : content ∈ w.nodes := .head _
  have reads : content.readAll.result w.session = .ok (image sampleFiles) := readAll_ofBytes _ _
  have short : Short sampleFiles := ⟨count, names⟩
  refine ⟨reached, member, reads, clean, short, ?_⟩
  obtain ⟨partition, read, each, found, -⟩ := recovers_image reached member reads clean short
  refine ⟨partition, read, ?_, ?_, ?_, each.length_eq⟩
  · rw [found, first, Option.bind_some]
  · rw [found, second, Option.bind_some]
  · rw [found, absent, Option.bind_none]

end Partition

end SealedContent
