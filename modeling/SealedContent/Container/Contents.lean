import SealedContent.Archive.ContentMeta
import SealedContent.Archive.Partition
import SealedContent.Archive.RomImage.Basic
import SealedContent.Container.Basic

/-! # File systems of sections

* `FileSystem` — a partition or an image; `FileSystem.paths` lists its files, `FileSystem.openFile`
  opens one by its path.
* `Patched.openFileSystem` — the file system of a section.
* `Patched.contentMeta` — the content meta that a container holds.
-/

namespace SealedContent

/-- The file system of a section. -/
inductive FileSystem where
  | partition (partition : Partition)
  | image (image : RomImage)

namespace FileSystem

/-- The paths of all files. Those of a partition are their names behind a slash. -/
def paths : FileSystem → List String
  | partition p => p.table.files.map fun file => "/" ++ file.name
  | image i => i.listing.files.map (·.path)

/-- A text without the slashes in front of it. -/
def withoutSlashes (path : String) : String := String.ofList (path.toList.dropWhile (· == '/'))

/-- The contents of the first file of a path. In a partition slashes in front of the path mean
    nothing. -/
def openFile (fileSystem : FileSystem) (path : String) : Except Error Storage :=
  match fileSystem with
  | partition p =>
    match p.file? (withoutSlashes path) with
    | some file => p.openFile file
    | none => .error (.format (.fileAbsent path))
  | image i =>
    match i.file? path with
    | some file => i.openFile file
    | none => .error (.format (.fileAbsent path))

end FileSystem

namespace Patched

def openPartition (patched : Patched) (index : Nat) : SessionM Partition := do
  Partition.ofStorage (← patched.openDefault index)

def openImage (patched : Patched) (index : Nat) : SessionM RomImage := do
  RomImage.ofStorage (← patched.openDefault index)

def openFileSystem (patched : Patched) (index : Nat) : SessionM FileSystem := do
  let (_, header) ← patched.top.sectionAt index
  match header.fileSystem with
  | .partition => return .partition (← patched.openPartition index)
  | .image => return .image (← patched.openImage index)
  | .unknown code => throw (.layout (.fileSystem index code))

/-- The content meta in the first section: the first file of a partition with the extension
    `cnmt`. -/
def contentMeta (patched : Patched) : SessionM ContentMeta := do
  match ← patched.openFileSystem 0 with
  | .image _ => throw (.format .metaNotPartition)
  | .partition p =>
    match p.table.files.find? fun file => ".cnmt".toList.isSuffixOf file.name.toList with
    | none => throw (.format .metaAbsent)
    | some file => ContentMeta.read.run' ⟨← p.openFile file, 0⟩

end Patched

end SealedContent
