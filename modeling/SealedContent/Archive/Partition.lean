import SealedContent.Archive.Table

/-! # Partitions

The flat archive of packages and of executable sections, with magic `PFS0`. An entry has `0x18`
bytes: offset, size and the offset of the name.

* `Partition.ofStorage` reads the table at the start of a storage; `Partition.file?` and
  `Partition.openFile` find and open a file.
* `Partition.image` — the archive of given files. Its data is aligned to `0x20` bytes.
-/

namespace SealedContent

/-- A partition that has been read. -/
structure Partition where
  storage : Storage
  table : ArchiveTable ArchiveFile

namespace Partition

def magic : String := "PFS0"

def entrySize : Nat := 0x18

/-! ## Reading -/

def entry : ReaderM (Nat × (String → ArchiveFile)) := do
  let offset ← ReaderM.number 8
  let size ← ReaderM.number 8
  let nameOffset ← ReaderM.number 4
  ReaderM.skip 4
  return (nameOffset, fun name => ⟨name, offset, size⟩)

def readTable : ReaderM (ArchiveTable ArchiveFile) := ArchiveTable.read magic entrySize entry

/-- The partition at the start of a storage. -/
def ofStorage (storage : Storage) : SessionM Partition := do
  return ⟨storage, ← readTable.run' ⟨storage, 0⟩⟩

def file? (partition : Partition) (name : String) : Option ArchiveFile :=
  partition.table.files.find? (·.name == name)

def openFile (partition : Partition) (file : ArchiveFile) : Except Error Storage :=
  partition.table.window partition.storage file

/-! ## Writing -/

def entryBytes (offset size nameOffset : Nat) : Bytes :=
  LittleEndian.encode 8 offset ++ LittleEndian.encode 8 size ++ LittleEndian.encode 4 nameOffset
    ++ .zeros 4

@[simp] theorem length_entryBytes (offset size nameOffset : Nat) :
    (entryBytes offset size nameOffset).length = entrySize := by
  simp [entryBytes, entrySize]

/-- The archive of the given names and contents. -/
def image (files : List (String × Bytes)) : Bytes :=
  let names := files.flatMap fun file => ArchiveTable.terminated file.1
  let offsets := placed (fun file : String × Bytes => file.2.length) 0 files
  let nameOffsets := placed (fun file : String × Bytes => (ArchiveTable.terminated file.1).length)
    0 files
  let entries := offsets.zipWith
    (fun (file, offset) (_, nameOffset) => entryBytes offset file.2.length nameOffset) nameOffsets
  -- Zeros behind the last name are no name, so they can fill the table up.
  let tableSize := ArchiveTable.headerSize + files.length * entrySize + names.length
  ArchiveTable.image magic entries (names ++ .zeros (Bytes.padding 0x20 tableSize))
    (files.flatMap (·.2))

end Partition

end SealedContent
