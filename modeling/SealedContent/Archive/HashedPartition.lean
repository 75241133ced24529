import SealedContent.Archive.Table
import SealedContent.Sha256

/-! # Hashed partitions

The archive of game cards, with magic `HFS0`. An entry has `0x40` bytes: offset, size, the offset of
the name, how many leading bytes of the file are hashed, and their hash.

* `HashedPartition.ofStorage` reads the table at the start of a storage; `HashedPartition.file?`,
  `HashedPartition.openFile` and `HashedPartition.verifyFile` find, open and check a file.
* `HashedPartition.image` — the archive of given files.
-/

namespace SealedContent

/-- A file with the hash of its leading bytes. -/
structure HashedFile extends ArchiveFile where
  /-- The number of bytes that are hashed. -/
  hashed : Nat
  digest : Bytes
deriving DecidableEq, Repr

/-- The number of bytes that a file has under its hash. -/
def HashedFile.covered (file : HashedFile) : Nat := min file.hashed file.size

/-- A hashed partition that has been read. -/
structure HashedPartition where
  storage : Storage
  table : ArchiveTable HashedFile

namespace HashedPartition

def magic : String := "HFS0"

def entrySize : Nat := 0x40

/-! ## Reading -/

def entry : ReaderM (Nat × (String → HashedFile)) := do
  let offset ← ReaderM.number 8
  let size ← ReaderM.number 8
  let nameOffset ← ReaderM.number 4
  let hashed ← ReaderM.number 4
  ReaderM.skip 8
  let digest ← ReaderM.exactly Sha256.size
  return (nameOffset, fun name => ⟨⟨name, offset, size⟩, hashed, digest⟩)

def readTable : ReaderM (ArchiveTable HashedFile) := ArchiveTable.read magic entrySize entry

def tableFile? (table : ArchiveTable HashedFile) (name : String) : Option HashedFile :=
  table.files.find? (·.name == name)

/-- The hashed partition at the start of a storage. -/
def ofStorage (storage : Storage) : SessionM HashedPartition := do
  return ⟨storage, ← readTable.run' ⟨storage, 0⟩⟩

def file? (partition : HashedPartition) (name : String) : Option HashedFile :=
  tableFile? partition.table name

def openFile (partition : HashedPartition) (file : HashedFile) : Except Error Storage :=
  partition.table.window partition.storage file.toArchiveFile

/-- Checks the covered bytes of a file. A mismatch is a warning too. -/
def verifyFile (partition : HashedPartition) (file : HashedFile) : SessionM Validity := do
  let bytes ← (← partition.openFile file).read 0 file.covered
  if Sha256.digest bytes = file.digest then return .valid
  SessionM.warn (.fileHash file.name)
  return .invalid

/-! ## Writing -/

def entryBytes (offset size nameOffset hashed : Nat) (digest : Bytes) : Bytes :=
  LittleEndian.encode 8 offset ++ LittleEndian.encode 8 size ++ LittleEndian.encode 4 nameOffset
    ++ LittleEndian.encode 4 hashed ++ .zeros 8 ++ digest

theorem length_entryBytes (offset size nameOffset hashed : Nat) {digest : Bytes}
    (h : digest.length = Sha256.size) :
    (entryBytes offset size nameOffset hashed digest).length = entrySize := by
  simp [entryBytes, entrySize, h, Sha256.size]

/-- The archive of the given names and contents, each hashed over its first `hashed` bytes. -/
def image (files : List (String × Bytes)) (hashed : Nat) : Bytes :=
  let names := files.flatMap fun file => ArchiveTable.terminated file.1
  let offsets := placed (fun file : String × Bytes => file.2.length) 0 files
  let nameOffsets := placed (fun file : String × Bytes => (ArchiveTable.terminated file.1).length)
    0 files
  let entries := offsets.zipWith (fun (file, offset) (_, nameOffset) =>
    entryBytes offset file.2.length nameOffset (min hashed file.2.length)
      (Sha256.digest (file.2.take hashed))) nameOffsets
  ArchiveTable.image magic entries names (files.flatMap (·.2))

end HashedPartition

end SealedContent
