import SealedContent.Storage.HashTree
import SealedContent.Storage.Reader

/-! # Section headers

Every section of a container has a header of `0x200` bytes: what file system it holds, how it is
encrypted, where its hash tree lies and, for patches, where its tables lie.

* `FileSystemKind`, `HashKind`, `SectionCipher` — the choices that a header makes.
* `HashLayout` — a hash table of one block (`HashLayout.table`) or several levels
  (`HashLayout.levels`).
* `PatchLayout` — the tables of a patch.
* `SectionHeader.read` — the header at the position of a reader.
-/

namespace SealedContent

/-! ## Choices -/

/-- The file system of a section. -/
inductive FileSystemKind where
  | image
  | partition
  | unknown (code : Nat)
deriving DecidableEq, Repr

def FileSystemKind.ofCode : Nat → FileSystemKind
  | 0 => image
  | 1 => partition
  | code => unknown code

/-- The layout of a section's hash tree. -/
inductive HashKind where
  /-- The layout that the file system implies; left open only where it implies none. -/
  | implied
  | none
  | table
  | levels
  | unknown (code : Nat)
deriving DecidableEq, Repr

/-- The layout with a code, for a section of the given file system. -/
def HashKind.ofCode (fileSystem : FileSystemKind) : Nat → HashKind
  | 0 => match fileSystem with
    | .image => levels
    | .partition => table
    | .unknown _ => implied
  | 1 => none
  | 2 => table
  | 3 => levels
  | code => unknown code

/-- The encryption of a section. -/
inductive SectionCipher where
  | plain
  | xts
  | ctr
  /-- CTR with the generations of a patch. -/
  | generations
  | unknown (code : Nat)
deriving DecidableEq, Repr

def SectionCipher.ofCode : Nat → SectionCipher
  | 0 | 3 => ctr
  | 1 => plain
  | 2 => xts
  | 4 => generations
  | code => unknown code

/-! ## Hash trees -/

/-- A hash table that is a single block, and the data under it. -/
structure TableLayout where
  master : Bytes
  blockSize : Nat
  table : Region
  data : Region
deriving DecidableEq, Repr

/-- A level whose blocks have a power of two of bytes. -/
structure LevelLayout where
  offset : Nat
  size : Nat
  blockBits : Nat
deriving DecidableEq, Repr

/-- Levels of hashes, of which the last one is the data. -/
structure LevelsLayout where
  version : Nat
  masterSize : Nat
  levels : List LevelLayout
  master : Bytes
deriving DecidableEq, Repr

/-- Where the levels of a hash tree lie in a section. -/
inductive HashLayout where
  | table (layout : TableLayout)
  | levels (layout : LevelsLayout)
deriving DecidableEq, Repr

/-- The region in the sixteen bytes at an offset. -/
def regionAt (bytes : Bytes) (offset : Nat) : Except Error Region := do
  return ⟨← bytes.numberAt offset 8, ← bytes.numberAt (offset + 8) 8⟩

def TableLayout.decode (bytes : Bytes) : Except Error TableLayout := do
  let master ← bytes.bytesAt 0 Sha256.size
  let blockSize ← bytes.numberAt 0x20 4
  return ⟨master, blockSize, ← regionAt bytes 0x28, ← regionAt bytes 0x38⟩

/-- Where a level lies, with the size of its blocks. -/
def LevelLayout.placement (level : LevelLayout) : HashPlacement :=
  ⟨level.offset, level.size, 1 <<< level.blockBits⟩

namespace LevelsLayout

def maxLevels : Nat := 6

/-- The level with a number in a descriptor. -/
def levelAt (bytes : Bytes) (number : Nat) : Except Error LevelLayout := do
  let offset := 0x10 + number * 0x18
  return ⟨← bytes.numberAt offset 8, ← bytes.numberAt (offset + 8) 8,
    ← bytes.numberAt (offset + 0x10) 4⟩

/-- The levels layout in a descriptor. The stated number of levels counts the master hash too. -/
def decode (bytes : Bytes) : Except Error LevelsLayout := do
  if (← bytes.bytesAt 0 4) ≠ .ofAscii "IVFC" then throw (.format .levelMagic)
  let version ← bytes.numberAt 0x4 4
  let masterSize ← bytes.numberAt 0x8 4
  let count ← bytes.numberAt 0xC 4
  if count < 2 ∨ maxLevels + 1 < count then throw (.format (.levelCount count))
  let levels ← (List.range (count - 1)).mapM (levelAt bytes)
  if levels.any (32 ≤ ·.blockBits) then throw (.format .levelBlockSize)
  return ⟨version, masterSize, levels, ← bytes.bytesAt 0xC0 Sha256.size⟩

end LevelsLayout

/-- The layout of a kind in a descriptor; other kinds have no tree. -/
def HashLayout.decode (kind : HashKind) (bytes : Bytes) : Except Error (Option HashLayout) :=
  match kind with
  | .table => do return some (.table (← TableLayout.decode bytes))
  | .levels => do return some (.levels (← LevelsLayout.decode bytes))
  | .implied | .none | .unknown _ => return none

/-! ## Patches -/

/-- Where a table of a patch lies, and how many entries it has. -/
structure PatchTable where
  region : Region
  version : Nat
  entries : Nat
deriving DecidableEq, Repr

/-- The tables of a patch. -/
structure PatchLayout where
  relocations : PatchTable
  subsections : PatchTable
deriving DecidableEq, Repr

/-- The table in a descriptor; an empty one is no table. -/
def PatchTable.decode? (bytes : Bytes) : Except Error (Option PatchTable) := do
  let region ← regionAt bytes 0
  if region.size = 0 then return none
  if (← bytes.bytesAt 0x10 4) ≠ .ofAscii "BKTR" then throw (.format .patchMagic)
  return some ⟨region, ← bytes.numberAt 0x14 4, ← bytes.numberAt 0x18 4⟩

/-- The tables in two descriptors. A section with only one of them is no patch. -/
def PatchLayout.decode? (bytes : Bytes) : Except Error (Option PatchLayout) := do
  match ← PatchTable.decode? (bytes.take 0x20), ← PatchTable.decode? (bytes.drop 0x20) with
  | some relocations, some subsections => return some ⟨relocations, subsections⟩
  | _, _ => return none

/-! ## Headers -/

/-- The header of a section. -/
structure SectionHeader where
  version : Nat
  fileSystem : FileSystemKind
  hashKind : HashKind
  cipher : SectionCipher
  hashes : Option HashLayout
  patch : Option PatchLayout
  /-- The upper half of the section's counters. -/
  counter : Nat
deriving DecidableEq, Repr

namespace SectionHeader

def size : Nat := 0x200

def read : ReaderM SectionHeader := do
  let version ← ReaderM.number 2
  let fileSystem := FileSystemKind.ofCode (← ReaderM.number 1)
  let hashKind := HashKind.ofCode fileSystem (← ReaderM.number 1)
  let cipher := SectionCipher.ofCode (← ReaderM.number 1)
  ReaderM.skip 3
  let hashData ← ReaderM.exactly 0xF8
  let patchData ← ReaderM.exactly 0x40
  let counter ← ReaderM.number 8
  let hashes ← HashLayout.decode hashKind hashData
  let patch ← PatchLayout.decode? patchData
  return { version, fileSystem, hashKind, cipher, hashes, patch, counter }

end SectionHeader

end SealedContent
