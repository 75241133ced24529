import SealedContent.Proofs.Archive.Stacks
import SealedContent.Proofs.RomImage.Preorder
import SealedContent.Proofs.RomImage.Walk
import SealedContent.Proofs.Text.Utf8
import SealedContent.Proofs.Windows

/-! # Where the entries of a written image stand

Entries and data stand one behind the other (`Stacked`), so each is a window of its table at the offset that the
writer gave it: `stands_directory`, `stands_file`, `stands_data`. From there the links of the written tables are
read off: `directory_links`, `file_links`.
-/

namespace SealedContent

open RomTables (listEnd directoryEntrySize fileEntrySize)

namespace RomImage

/-! ## The parts of an image -/

variable (files : List (String × Bytes))

def sources : List RomSource := files.map fun (path, contents) => RomSource.ofPath path contents

def directoryPaths : List (List String) := sourceDirectories (sources files)

def orderedSources : List RomSource :=
  (directoryPaths files).flatMap fun path => (sources files).filter (·.directory == path)

def directories : List PlacedDirectory := placeDirectories (directoryPaths files)

def placedFiles : List PlacedFile := placeFiles (orderedSources files)

def directoryTable : Bytes := (directoryPaths files).flatMap (directoryEntry (directories files) (placedFiles files))

def fileTable : Bytes := fileEntries (directories files) (placedFiles files)

def tables : RomTables := ⟨directoryTable files, fileTable files⟩

def dataBytes : Bytes := (orderedSources files).flatMap (·.contents.aligned 0x10)

/-- Where the data starts. -/
def dataStart : Nat :=
  let tablesEnd := RomHeader.size + (directoryTable files).length + (fileTable files).length
  tablesEnd + Bytes.padding 0x200 tablesEnd

theorem image_eq : image files = headerBytes (directoryTable files).length (fileTable files).length (dataStart files)
    ++ directoryTable files ++ fileTable files
    ++ .zeros (dataStart files - (RomHeader.size + (directoryTable files).length + (fileTable files).length))
    ++ dataBytes files := by
  simp only [dataStart, Nat.add_sub_cancel_left]
  rfl

/-- Every position in the tables is a 32-bit number. -/
structure Short : Prop where
  directories : (directoryTable files).length ≤ 2 ^ 32
  files : (fileTable files).length ≤ 2 ^ 32

variable {files} {path : List String} {place : Nat}

theorem map_directories : (directories files).map Prod.fst = directoryPaths files := map_placed _ _ _

theorem stacked_directories : Stacked (fun directory : PlacedDirectory => directory.2)
    (fun directory => directoryEntrySize + (nameBytes (directoryName directory.1)).length) 0 (directories files) :=
  stacked_placed (fun path => directoryEntrySize + (nameBytes (directoryName path)).length) 0 (directoryPaths files)

theorem nodup_directories : ((directories files).map Prod.fst).Nodup := by
  rw [map_directories]
  exact nodup_sourceDirectories _

theorem exists_place (member : path ∈ directoryPaths files) : ∃ place, (path, place) ∈ directories files := by
  rw [← map_directories] at member
  obtain ⟨⟨_, place⟩, found, rfl⟩ := List.mem_map.mp member
  exact ⟨place, found⟩

/-- The root stands at the start. -/
theorem root_placed : ([], 0) ∈ directories files := by
  obtain ⟨rest, first⟩ := exists_sourceDirectories (sources files)
  rw [directories, placeDirectories, directoryPaths, first]
  exact .head _

/-! ## Files and data -/

theorem stacked_placeFiles (sources : List RomSource) :
    Stacked PlacedFile.entry (fun file => fileEntrySize + (nameBytes file.source.name).length) 0 (placeFiles sources) ∧
      Stacked PlacedFile.data (fun file => (file.source.contents.aligned 0x10).length) 0 (placeFiles sources) ∧
      (placeFiles sources).map PlacedFile.source = sources :=
  @stacked_zipWith_placed _ _ PlacedFile.source PlacedFile.entry PlacedFile.data
    (fun source => fileEntrySize + (nameBytes source.name).length)
    (fun source => (source.contents.aligned 0x10).length) PlacedFile.mk (fun _ _ _ => ⟨rfl, rfl, rfl⟩) 0 0 sources

theorem map_placedFiles : (placedFiles files).map PlacedFile.source = orderedSources files :=
  (stacked_placeFiles (orderedSources files)).2.2

theorem stacked_entries : Stacked PlacedFile.entry
    (fun file => fileEntrySize + (nameBytes file.source.name).length) 0 (placedFiles files) :=
  (stacked_placeFiles (orderedSources files)).1

theorem stacked_data : Stacked PlacedFile.data (fun file => (file.source.contents.aligned 0x10).length) 0
    (placedFiles files) :=
  (stacked_placeFiles (orderedSources files)).2.1

theorem nodup_entries : ((placedFiles files).map PlacedFile.entry).Nodup :=
  stacked_entries.nodup fun _ => Nat.add_pos_left (by decide) _

/-! ## Entries -/

theorem length_link (offset : Option Nat) : (link offset).length = 4 := LittleEndian.length_encode _ _

theorem length_nameLength (name : String) : (nameLength name).length = 4 := LittleEndian.length_encode _ _

theorem window_nameBytes (name : String) : (nameBytes name).window 0 (Utf8.encode name).length = Utf8.encode name :=
  Bytes.window_append_first _ rfl

theorem le_length_nameBytes (name : String) : (Utf8.encode name).length ≤ (nameBytes name).length := by
  rw [nameBytes, Bytes.aligned, List.length_append]
  exact Nat.le_add_right _ _

section
variable (directories : List PlacedDirectory) (files : List PlacedFile)

theorem length_directoryEntry (path : List String) : (directoryEntry directories files path).length =
    directoryEntrySize + (nameBytes (directoryName path)).length := by
  simp only [directoryEntry, List.length_append, length_link, length_nameLength, directoryEntrySize]

theorem length_fileEntry (file : PlacedFile) (next : Option PlacedFile) : (fileEntry directories file next).length =
    fileEntrySize + (nameBytes file.source.name).length := by
  simp only [fileEntry, List.length_append, length_link, length_nameLength, LittleEndian.length_encode, fileEntrySize]

theorem directoryEntry_fields (path : List String) :
    let entry := directoryEntry directories files path
    entry.fieldAt 0x4 4 = (siblingOf? directories path).getD listEnd % 256 ^ 4 ∧
      entry.fieldAt 0x8 4 = ((childrenOf directories path).head?.map (·.2)).getD listEnd % 256 ^ 4 ∧
      entry.fieldAt 0xC 4 = ((files.find? (·.source.directory == path)).map (·.entry)).getD listEnd % 256 ^ 4 ∧
      entry.fieldAt 0x14 4 = (Utf8.encode (directoryName path)).length % 256 ^ 4 ∧
      entry.window 0x18 (Utf8.encode (directoryName path)).length = Utf8.encode (directoryName path) := by
  simp [directoryEntry, link, nameLength, Bytes.fieldAt_append_of_le, Bytes.fieldAt_encode,
    Bytes.window_append_of_le, window_nameBytes]

theorem fileEntry_fields (file : PlacedFile) (next : Option PlacedFile) :
    let entry := fileEntry directories file next
    entry.fieldAt 0x4 4 = ((next.filter (·.source.directory == file.source.directory)).map (·.entry)).getD listEnd
        % 256 ^ 4 ∧
      entry.fieldAt 0x8 8 = file.data % 256 ^ 8 ∧ entry.fieldAt 0x10 8 = file.source.contents.length % 256 ^ 8 ∧
      entry.fieldAt 0x1C 4 = (Utf8.encode file.source.name).length % 256 ^ 4 ∧
      entry.window 0x20 (Utf8.encode file.source.name).length = Utf8.encode file.source.name := by
  simp [fileEntry, link, nameLength, Bytes.fieldAt_append_of_le, Bytes.fieldAt_encode,
    Bytes.window_append_of_le, window_nameBytes]

end

/-! ## What stands in the tables -/

theorem entryAt?_link {kind : Nat → RomEntry} {offset : Option Nat} (below : ∀ place ∈ offset, place < listEnd) :
    RomTables.entryAt? kind (offset.getD listEnd % 256 ^ 4) = offset.map kind := by
  cases offset with
  | none => rfl
  | some place =>
    have small := below place rfl
    simp only [listEnd] at small
    rw [Option.getD_some, Nat.mod_eq_of_lt (by omega), RomTables.entryAt?, if_neg (by simp only [listEnd]; omega)]
    rfl

theorem stands_of_sized {entryOf : List String → Bytes}
    (sized : ∀ path, (entryOf path).length = directoryEntrySize + (nameBytes (directoryName path)).length)
    (member : (path, place) ∈ directories files) :
    place + (directoryEntrySize + (nameBytes (directoryName path)).length) ≤
        ((directoryPaths files).flatMap entryOf).length ∧
      Bytes.window ((directoryPaths files).flatMap entryOf) place
        (directoryEntrySize + (nameBytes (directoryName path)).length) = entryOf path := by
  rw [← map_directories, List.flatMap_map]
  exact stacked_directories.stands_flatMap (fun directory => entryOf directory.1) (fun directory => sized directory.1)
    member

theorem stands_directory (member : (path, place) ∈ directories files) :
    place + (directoryEntrySize + (nameBytes (directoryName path)).length) ≤ (directoryTable files).length ∧
      (directoryTable files).window place (directoryEntrySize + (nameBytes (directoryName path)).length) =
        directoryEntry (directories files) (placedFiles files) path :=
  stands_of_sized (length_directoryEntry _ _) member

theorem stands_file {before rest : List PlacedFile} {file : PlacedFile}
    (split : placedFiles files = before ++ file :: rest) :
    file.entry + (fileEntrySize + (nameBytes file.source.name).length) ≤ (fileTable files).length ∧
      (fileTable files).window file.entry (fileEntrySize + (nameBytes file.source.name).length) =
        fileEntry (directories files) file rest.head? :=
  stacked_entries.stands (fileEntries (directories files))
    (fun file rest => fileEntry (directories files) file rest.head?) (fun _ _ => rfl)
    (fun file _ => length_fileEntry _ file _) split

/-- The contents of a file stand at its offset. -/
theorem stands_data {file : PlacedFile} (member : file ∈ placedFiles files) :
    file.data + file.source.contents.length ≤ (dataBytes files).length ∧
      (dataBytes files).window file.data file.source.contents.length = file.source.contents := by
  obtain ⟨inside, same⟩ := stacked_data.stands_flatMap (fun file => file.source.contents.aligned 0x10)
    (fun _ => rfl) member
  have data : dataBytes files = (placedFiles files).flatMap fun file => file.source.contents.aligned 0x10 := by
    rw [dataBytes, ← map_placedFiles, List.flatMap_map]
  have short : file.source.contents.length ≤ (file.source.contents.aligned 0x10).length := by
    rw [Bytes.aligned, List.length_append]
    exact Nat.le_add_right _ _
  have front : (file.source.contents.aligned 0x10).window 0 file.source.contents.length = file.source.contents :=
    Bytes.window_append_first _ rfl
  rw [← data] at inside same
  have cut : ((dataBytes files).window file.data (file.source.contents.aligned 0x10).length).window 0
      file.source.contents.length = (dataBytes files).window (file.data + 0) file.source.contents.length :=
    Bytes.window_window (by rwa [Nat.zero_add])
  rw [same, front] at cut
  exact ⟨(Nat.add_le_add_left short _).trans inside, cut.symm⟩

variable (short : Short files)
include short

theorem place_lt (member : (path, place) ∈ directories files) : place < listEnd := by
  have inside := (stands_directory member).1
  have small := short.directories
  simp only [directoryEntrySize, listEnd] at inside ⊢
  omega

theorem entry_lt {file : PlacedFile} (member : file ∈ placedFiles files) : file.entry < listEnd := by
  obtain ⟨before, rest, split⟩ := List.append_of_mem member
  have inside := (stands_file split).1
  have small := short.files
  simp only [fileEntrySize, listEnd] at inside ⊢
  omega

omit short in
theorem mem_of_siblingOf? (found : place ∈ siblingOf? (directories files) path) :
    ∃ sibling, (sibling, place) ∈ directories files := by
  obtain ⟨⟨sibling, _⟩, next, rfl⟩ := Option.map_eq_some_iff.mp found
  have behind := List.mem_of_mem_tail (List.mem_of_mem_head? next)
  exact ⟨sibling, List.mem_of_mem_filter ((List.dropWhile_suffix _).subset behind)⟩

/-- The entry of a directory, read off its table. -/
theorem directory_links (member : (path, place) ∈ directories files) :
    (tables files).Holds (.directory place) ∧ (tables files).nameOf (.directory place) = directoryName path ∧
      (tables files).target? (.nextDirectory place) = (siblingOf? (directories files) path).map .directory ∧
      (tables files).target? (.firstDirectory place) =
        ((childrenOf (directories files) path).head?.map (·.2)).map .directory ∧
      (tables files).target? (.firstFile place) =
        (((placedFiles files).find? (·.source.directory == path)).map (·.entry)).map .file := by
  obtain ⟨inside, stands⟩ := stands_directory member
  obtain ⟨next, firstDirectory, firstFile, long, name⟩ :=
    directoryEntry_fields (directories files) (placedFiles files) path
  have field : ∀ offset width, offset + width ≤ 0x18 → (directoryTable files).fieldAt (place + offset) width =
      (directoryEntry (directories files) (placedFiles files) path).fieldAt offset width := by
    intro offset width early
    rw [← stands, Bytes.fieldAt_window (by simp only [directoryEntrySize]; omega)]
  have nameInside := le_length_nameBytes (directoryName path)
  have small := short.directories
  have length : (directoryTable files).fieldAt (place + 0x14) 4 = (Utf8.encode (directoryName path)).length := by
    simp only [directoryEntrySize] at inside
    rw [field _ _ (by decide), long, Nat.mod_eq_of_lt (by omega)]
  refine ⟨?_, ?_, ?_, ?_, ?_⟩
  · simp only [RomTables.Holds, tables, length, directoryEntrySize] at inside ⊢
    omega
  · simp only [RomTables.nameOf, tables, length]
    rw [← Bytes.window_window (Nat.add_le_add_left nameInside directoryEntrySize), stands, directoryEntrySize, name,
      Utf8.decodeLossy_encode]
  · simp only [RomTables.target?, tables, field 0x4 4 (by decide), next]
    refine entryAt?_link fun sibling found => ?_
    obtain ⟨_, member⟩ := mem_of_siblingOf? found
    exact place_lt short member
  · simp only [RomTables.target?, tables, field 0x8 4 (by decide), firstDirectory]
    refine entryAt?_link fun child found => ?_
    obtain ⟨⟨below, _⟩, first, rfl⟩ := Option.map_eq_some_iff.mp found
    exact place_lt short (List.mem_of_mem_filter (List.mem_of_mem_head? first))
  · simp only [RomTables.target?, tables, field 0xC 4 (by decide), firstFile]
    refine entryAt?_link fun entry found => ?_
    obtain ⟨file, first, rfl⟩ := Option.map_eq_some_iff.mp found
    exact entry_lt short (List.mem_of_find?_eq_some first)

/-- The entry of a file, read off its table. -/
theorem file_links {before rest : List PlacedFile} {file : PlacedFile}
    (split : placedFiles files = before ++ file :: rest) :
    (tables files).Holds (.file file.entry) ∧ (tables files).nameOf (.file file.entry) = file.source.name ∧
      (tables files).target? (.nextFile file.entry) =
        ((rest.head?.filter (·.source.directory == file.source.directory)).map (·.entry)).map .file ∧
      (fileTable files).fieldAt (file.entry + 0x8) 8 = file.data % 256 ^ 8 ∧
      (fileTable files).fieldAt (file.entry + 0x10) 8 = file.source.contents.length % 256 ^ 8 := by
  obtain ⟨inside, stands⟩ := stands_file split
  obtain ⟨next, data, size, long, name⟩ := fileEntry_fields (directories files) file rest.head?
  have field : ∀ offset width, offset + width ≤ 0x20 → (fileTable files).fieldAt (file.entry + offset) width =
      (fileEntry (directories files) file rest.head?).fieldAt offset width := by
    intro offset width early
    rw [← stands, Bytes.fieldAt_window (by simp only [fileEntrySize]; omega)]
  have nameInside := le_length_nameBytes file.source.name
  have small := short.files
  have length : (fileTable files).fieldAt (file.entry + 0x1C) 4 = (Utf8.encode file.source.name).length := by
    simp only [fileEntrySize] at inside
    rw [field _ _ (by decide), long, Nat.mod_eq_of_lt (by omega)]
  refine ⟨?_, ?_, ?_, (field _ _ (by decide)).trans data, (field _ _ (by decide)).trans size⟩
  · simp only [RomTables.Holds, tables, length, fileEntrySize] at inside ⊢
    omega
  · simp only [RomTables.nameOf, tables, length]
    rw [← Bytes.window_window (Nat.add_le_add_left nameInside fileEntrySize), stands, fileEntrySize, name,
      Utf8.decodeLossy_encode]
  · simp only [RomTables.target?, tables, field 0x4 4 (by decide), next]
    refine entryAt?_link fun entry found => ?_
    obtain ⟨sibling, next, rfl⟩ := Option.map_eq_some_iff.mp found
    obtain ⟨behind, -⟩ := Option.filter_eq_some_iff.mp next
    refine entry_lt short (split ▸ List.mem_append_right _ (.tail _ ?_))
    exact List.mem_of_mem_head? behind

end RomImage

end SealedContent
