import SealedContent.Archive.RomImage.Basic
import SealedContent.Archive.Table

/-! # Writing images

`RomImage.image` is the image of given files. Its directories are those that the paths mention, in
the order in which they are first mentioned. The hash tables are empty, entries and names are aligned
to 4 bytes, files to `0x10` and the data to `0x200`.
-/

namespace SealedContent

/-! ## Paths -/

/-- The parts of a path between its slashes. -/
def pathParts : List Char → List (List Char)
  | [] => [[]]
  | c :: rest =>
    if c = '/' then [] :: pathParts rest
    else match pathParts rest with
      | [] => [[c]]
      | part :: parts => (c :: part) :: parts

/-- All leading parts of a list, from the empty one to the list itself. -/
def leadingParts {α : Type} : List α → List (List α)
  | [] => [[]]
  | a :: rest => [] :: (leadingParts rest).map (a :: ·)

/-- A file to be written. -/
structure RomSource where
  /-- The names of the directories that hold the file, from the root down. -/
  directory : List String
  name : String
  contents : Bytes
deriving DecidableEq, Repr

/-- The file of a path. Slashes in front of a path mean nothing. -/
def RomSource.ofPath (path : String) (contents : Bytes) : RomSource :=
  let parts := (pathParts (path.toList.dropWhile (· == '/'))).map String.ofList
  ⟨parts.dropLast, parts.getLastD "", contents⟩

namespace RomImage

/-- The directories of some files, each once, a directory behind the one that holds it. -/
def sourceDirectories (sources : List RomSource) : List (List String) :=
  ([] :: sources.flatMap fun source => leadingParts source.directory).eraseDups

/-! ## Entries -/

def nameBytes (name : String) : Bytes := (Utf8.encode name).aligned 4

/-- A field that links to an entry, or ends a list. -/
def link (offset : Option Nat) : Bytes := LittleEndian.encode 4 (offset.getD RomTables.listEnd)

def nameLength (name : String) : Bytes := LittleEndian.encode 4 (Utf8.encode name).length

/-- A directory with the offset of its entry. -/
abbrev PlacedDirectory := List String × Nat

/-- The name of a directory; the root has none. -/
def directoryName (path : List String) : String := path.getLastD ""

/-- Directories with the offsets of their entries. -/
def placeDirectories (paths : List (List String)) : List PlacedDirectory :=
  placed (fun path => RomTables.directoryEntrySize + (nameBytes (directoryName path)).length) 0 paths

/-- A file with the offsets of its entry and of its data. -/
structure PlacedFile where
  source : RomSource
  entry : Nat
  data : Nat

/-- Files with the offsets of their entries and of their data. -/
def placeFiles (sources : List RomSource) : List PlacedFile :=
  let entries := placed
    (fun source : RomSource => RomTables.fileEntrySize + (nameBytes source.name).length) 0 sources
  let data := placed (fun source : RomSource => (source.contents.aligned 0x10).length) 0 sources
  entries.zipWith (fun (source, entry) (_, data) => ⟨source, entry, data⟩) data

def childrenOf (directories : List PlacedDirectory) (path : List String) : List PlacedDirectory :=
  directories.filter fun child => child.1 != [] && child.1.dropLast == path

def offsetOf? (directories : List PlacedDirectory) (path : List String) : Option Nat :=
  (directories.find? (·.1 == path)).map (·.2)

/-- The directory behind another one in the directory that holds both. -/
def siblingOf? (directories : List PlacedDirectory) (path : List String) : Option Nat :=
  let behind := (childrenOf directories path.dropLast).dropWhile (·.1 != path)
  behind.tail.head?.map (·.2)

def directoryEntry (directories : List PlacedDirectory) (files : List PlacedFile)
    (path : List String) : Bytes :=
  let first := files.find? (·.source.directory == path)
  link (offsetOf? directories path.dropLast) ++ link (siblingOf? directories path)
    ++ link ((childrenOf directories path).head?.map (·.2)) ++ link (first.map (·.entry))
    ++ link none ++ nameLength (directoryName path) ++ nameBytes (directoryName path)

/-- The bytes of a file entry. The next file of the directory, if any, stands right behind it. -/
def fileEntry (directories : List PlacedDirectory) (file : PlacedFile) (next : Option PlacedFile) :
    Bytes :=
  let sibling := next.filter (·.source.directory == file.source.directory)
  link (offsetOf? directories file.source.directory) ++ link (sibling.map (·.entry))
    ++ LittleEndian.encode 8 file.data ++ LittleEndian.encode 8 file.source.contents.length
    ++ link none ++ nameLength file.source.name ++ nameBytes file.source.name

def fileEntries (directories : List PlacedDirectory) : List PlacedFile → Bytes
  | [] => []
  | file :: rest => fileEntry directories file rest.head? ++ fileEntries directories rest

/-! ## The image -/

/-- The bytes of a header without hash tables. -/
def headerBytes (directoriesSize filesSize dataOffset : Nat) : Bytes :=
  let directories := RomHeader.size
  let files := directories + directoriesSize
  [RomHeader.size, directories, 0, directories, directoriesSize, files, 0, files, filesSize,
    dataOffset].flatMap (LittleEndian.encode 8)

/-- The image of the given paths and contents. Files of one directory keep their order. -/
def image (files : List (String × Bytes)) : Bytes :=
  let sources := files.map fun (path, contents) => RomSource.ofPath path contents
  let paths := sourceDirectories sources
  -- Entries and data stand in the order of the directories that hold them.
  let ordered := paths.flatMap fun path => sources.filter (·.directory == path)
  let directories := placeDirectories paths
  let placedFiles := placeFiles ordered
  let directoryTable := paths.flatMap (directoryEntry directories placedFiles)
  let fileTable := fileEntries directories placedFiles
  let tablesEnd := RomHeader.size + directoryTable.length + fileTable.length
  let gap := Bytes.padding 0x200 tablesEnd
  headerBytes directoryTable.length fileTable.length (tablesEnd + gap)
    ++ directoryTable ++ fileTable ++ .zeros gap ++ ordered.flatMap (·.contents.aligned 0x10)

end RomImage

end SealedContent
