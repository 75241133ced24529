import SealedContent.Storage.Reader

/-! # Content meta

The table of contents of a title: which contents belong to it, and which other titles it refers to. A
header of `0x20` bytes is followed by an extended header, the content records of `0x38` bytes and the
meta records of `0x10` bytes.

* `MetaKind`, `ContentKind` — the kinds of titles and of contents.
* `ContentMeta.read` — the table at the position of a reader.
-/

namespace SealedContent

/-! ## Kinds -/

/-- The kind of a title. -/
inductive MetaKind where
  | systemProgram | systemData | systemUpdate | bootImagePackage | bootImagePackageSafe
  | application | patch | addOnContent | delta
  | unknown (code : Nat)
deriving DecidableEq, Repr

def MetaKind.ofCode : Nat → MetaKind
  | 0x01 => systemProgram
  | 0x02 => systemData
  | 0x03 => systemUpdate
  | 0x04 => bootImagePackage
  | 0x05 => bootImagePackageSafe
  | 0x80 => application
  | 0x81 => patch
  | 0x82 => addOnContent
  | 0x83 => delta
  | code => unknown code

/-- The kind of a content. -/
inductive ContentKind where
  | contentMeta | program | data | control | htmlDocument | legalInformation | deltaFragment
  | unknown (code : Nat)
deriving DecidableEq, Repr

def ContentKind.ofCode : Nat → ContentKind
  | 0 => contentMeta
  | 1 => program
  | 2 => data
  | 3 => control
  | 4 => htmlDocument
  | 5 => legalInformation
  | 6 => deltaFragment
  | code => unknown code

/-! ## Records -/

/-- A content of a title. -/
structure ContentRecord where
  /-- The SHA-256 of the container. -/
  digest : Bytes
  /-- The sixteen bytes that name the content. -/
  id : Bytes
  size : Nat
  kind : ContentKind
  idOffset : Nat
deriving DecidableEq, Repr

/-- The name of the file that holds a content. -/
def ContentRecord.fileName (record : ContentRecord) : String := Hex.lower record.id ++ ".nca"

def ContentRecord.read : ReaderM ContentRecord := do
  let digest ← ReaderM.exactly 0x20
  let id ← ReaderM.exactly 0x10
  let size ← ReaderM.number 6
  let kind ← ReaderM.number 1
  return ⟨digest, id, size, .ofCode kind, ← ReaderM.number 1⟩

/-- A reference to another title. -/
structure MetaRecord where
  titleId : Nat
  version : Nat
  kind : MetaKind
  attributes : Nat
deriving DecidableEq, Repr

def MetaRecord.read : ReaderM MetaRecord := do
  let titleId ← ReaderM.number 8
  let version ← ReaderM.number 4
  let kind ← ReaderM.number 1
  let attributes ← ReaderM.number 1
  ReaderM.skip 2
  return ⟨titleId, version, .ofCode kind, attributes⟩

/-! ## The table -/

/-- The table of contents of a title. -/
structure ContentMeta where
  titleId : Nat
  version : Nat
  kind : MetaKind
  attributes : Nat
  /-- The version of the system that a download needs. -/
  systemVersion : Nat
  /-- What the extended header means depends on the kind. -/
  extended : Bytes
  contents : List ContentRecord
  references : List MetaRecord
deriving DecidableEq, Repr

namespace ContentMeta

/-- The size of the fields before the extended header. -/
def headerSize : Nat := 0x20

def read : ReaderM ContentMeta := do
  let base ← ReaderM.position
  let titleId ← ReaderM.number 8
  let version ← ReaderM.number 4
  let kind ← ReaderM.number 1
  ReaderM.skip 1
  let extendedSize ← ReaderM.number 2
  let contentCount ← ReaderM.number 2
  let referenceCount ← ReaderM.number 2
  let attributes ← ReaderM.number 1
  ReaderM.skip 3
  let systemVersion ← ReaderM.number 4
  ReaderM.skip 4
  let extended ← ReaderM.exactly extendedSize
  ReaderM.seekTo (base + headerSize + extendedSize)
  let contents ← ReaderM.repeated contentCount ContentRecord.read
  let references ← ReaderM.repeated referenceCount MetaRecord.read
  return ⟨titleId, version, .ofCode kind, attributes, systemVersion, extended, contents, references⟩

def contentsOf (table : ContentMeta) (kind : ContentKind) : List ContentRecord :=
  table.contents.filter (·.kind = kind)

end ContentMeta

end SealedContent
