import SealedContent.Storage.Reader
import SealedContent.Text.Utf8

/-! # Archive tables

Archives of files begin with a table: a magic, the number of files, an entry for each of them and a
string of names that the entries point into. The data of the files follows.

* `ArchiveFile` — a file's name and its range in the data, and `ArchiveTable` — all files.
* `ArchiveTable.read` — the table at the position of a reader, given how one entry is read.
* `ArchiveTable.image` — the bytes of an archive, given its entries, names and data.
* `placed` — where items stand that lie one behind the other.
-/

namespace SealedContent

/-- A file of an archive. -/
structure ArchiveFile where
  name : String
  /-- Where the file lies, counted from the start of the data. -/
  offset : Nat
  size : Nat
deriving DecidableEq, Repr, Inhabited

/-- The files of an archive in the order of their entries. -/
structure ArchiveTable (File : Type) where
  files : List File
  /-- Where the data starts, counted from the start of what the table was read from. -/
  dataOffset : Nat

namespace ArchiveTable

variable {File : Type}

/-- The size of the fields before the entries. -/
def headerSize : Nat := 0x10

/-! ## Reading -/

/-- Reads a table. An entry gives the offset of its name and what it becomes with that name. -/
def read (magic : String) (entrySize : Nat) (entry : ReaderM (Nat × (String → File))) :
    ReaderM (ArchiveTable File) := do
  let base ← ReaderM.position
  ReaderM.magic magic
  let count ← ReaderM.number 4
  let namesSize ← ReaderM.number 4
  ReaderM.skip 4
  let entries ← ReaderM.repeated count entry
  -- The names stand behind all entries, so entries get theirs only now.
  let names ← ReaderM.field namesSize
  let files ← entries.mapM fun (offset, named) => do
    return named (Utf8.decodeLossy (← names.terminatedAt offset))
  return ⟨files, base + headerSize + count * entrySize + namesSize⟩

/-- The window of a file onto the storage of its archive. -/
def window (table : ArchiveTable File) (storage : Storage) (file : ArchiveFile) :
    Except Error Storage :=
  storage.windowBehind table.dataOffset file.offset file.size

/-! ## Writing -/

def image (magic : String) (entries : List Bytes) (names data : Bytes) : Bytes :=
  .ofAscii magic ++ LittleEndian.encode 4 entries.length ++ LittleEndian.encode 4 names.length
    ++ .zeros 4 ++ entries.flatten ++ names ++ data

/-- A name as it stands in the string of names. -/
def terminated (name : String) : Bytes := Utf8.encode name ++ [0]

end ArchiveTable

/-- Items that lie one behind the other from `start` on, each with where it stands. -/
def placed {α : Type} (size : α → Nat) : (start : Nat) → List α → List (α × Nat)
  | _, [] => []
  | start, a :: rest => (a, start) :: placed size (start + size a) rest

end SealedContent
