import SealedContent.Archive.RomImage.Tree
import SealedContent.Storage.Reader

/-! # Images

The hierarchical read-only file system of data sections. A header of `0x50` bytes says where the
tables lie and where the data starts.

* `RomImage.ofStorage` reads the header and walks the tree.
* `RomImage.file?` and `RomImage.openFile` find and open a file by its path.
-/

namespace SealedContent

/-- Where the parts of an image lie. -/
structure RomHeader where
  directoryHashes : Region
  directories : Region
  fileHashes : Region
  files : Region
  dataOffset : Nat
deriving DecidableEq, Repr

namespace RomHeader

/-- The size of a header, which it also states itself. -/
def size : Nat := 0x50

def region : ReaderM Region := return ⟨← ReaderM.number 8, ← ReaderM.number 8⟩

def read : ReaderM RomHeader := do
  let stated ← ReaderM.number 8
  if stated ≠ size then throw (.format (.romHeaderSize stated))
  return ⟨← region, ← region, ← region, ← region, ← ReaderM.number 8⟩

end RomHeader

/-- An image that has been read. -/
structure RomImage where
  storage : Storage
  header : RomHeader
  listing : RomListing

namespace RomImage

def ofStorage (storage : Storage) : SessionM RomImage := do
  let header ← RomHeader.read.run' ⟨storage, 0⟩
  let directories ← storage.readRegion header.directories
  let files ← storage.readRegion header.files
  return ⟨storage, header, ← RomTables.walk ⟨directories, files⟩⟩

def file? (image : RomImage) (path : String) : Option RomPath :=
  image.listing.files.find? (·.path == path)

def openFile (image : RomImage) (file : RomPath) : Except Error Storage :=
  image.storage.windowBehind image.header.dataOffset file.offset file.size

end RomImage

end SealedContent
