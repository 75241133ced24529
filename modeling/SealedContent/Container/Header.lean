import SealedContent.Container.Envelope
import SealedContent.Container.SectionHeader
import SealedContent.Keys.Ring
import SealedContent.Storage.MediaUnits

/-! # Container headers

What a container says about itself: its content, its keys, and where its four sections lie. The hash
of each section header stands in the signed part.

* `ContainerHeader.ofStorage` — the header in plain text; `ContainerHeader.read` also decrypts it.
* `ContainerHeader.section?` — a section that is present.
* `ContainerHeader.keyAreaKeys`, `ContainerHeader.titleKey` — the content keys.
* `ContainerHeader.verifySignature` — the signature with the fixed key.
-/

namespace SealedContent

/-! ## Choices -/

/-- How a container is distributed. -/
inductive Distribution where
  | download
  | gameCard
  | unknown (code : Nat)
deriving DecidableEq, Repr

def Distribution.ofCode : Nat → Distribution
  | 0 => download
  | 1 => gameCard
  | code => unknown code

/-- What a container holds. -/
inductive ContainerKind where
  | program | contentMeta | control | manual | data | publicData
  | unknown (code : Nat)
deriving DecidableEq, Repr

def ContainerKind.ofCode : Nat → ContainerKind
  | 0 => program
  | 1 => contentMeta
  | 2 => control
  | 3 => manual
  | 4 => data
  | 5 => publicData
  | code => unknown code

/-! ## Headers -/

/-- The header of a container. Its lists have one item for each of four sections. -/
structure ContainerHeader where
  version : ContainerVersion
  distribution : Distribution
  kind : ContainerKind
  /-- The newer of the two generations that the header states. -/
  generation : Nat
  keyAreaKind : KeyAreaKind
  contentSize : Nat
  programId : Nat
  contentIndex : Nat
  sdkVersion : Nat
  signatureGeneration : Nat
  /-- Zero if the content keys lie in the key area. -/
  rightsId : RightsId
  ranges : List UnitRange
  digests : List Bytes
  keyArea : List Aes.Block
  /-- The headers of the sections that are present. -/
  sections : List (Option SectionHeader)
  /-- The header was stored encrypted. -/
  encrypted : Bool
  /-- The header in plain text. -/
  storage : Storage

namespace ContainerHeader

/-! ## Reading -/

def readVersion : ReaderM ContainerVersion := do
  let magic ← ReaderM.exactly 4
  match ContainerVersion.ofMagic? magic with
  | some version => return version
  | none =>
    if ContainerVersion.isOldMagic magic then
      throw (.layout (.oldHeader (String.ofList (magic.map fun b => Char.ofNat b.toNat))))
    throw (.format .headerMagic)

def readRange : ReaderM UnitRange := do
  let range : UnitRange := ⟨← ReaderM.number 4, ← ReaderM.number 4⟩
  ReaderM.skip 8
  if range.isPresent ∧ range.last < range.first then throw (.format .sectionReversed)
  return range

/-- Reads the header of a section that is present, and checks its hash. -/
def readSection (index : Nat) (range : UnitRange) (digest : Bytes) :
    ReaderM (Option SectionHeader) := do
  if !range.isPresent then return none
  let offset := Envelope.sectionsOffset + index * SectionHeader.size
  let bytes ← ReaderM.ofSession ((← get).storage.read offset SectionHeader.size)
  -- Only bytes under the signed hash are parsed.
  if Sha256.digest bytes ≠ digest then throw (.format (.sectionHeaderHash index))
  ReaderM.seekTo offset
  return some (← SectionHeader.read)

def readSections : (index : Nat) → List (UnitRange × Bytes) → ReaderM (List (Option SectionHeader))
  | _, [] => return []
  | index, (range, digest) :: rest => do
    return (← readSection index range digest) :: (← readSections (index + 1) rest)

def readPlain (encrypted : Bool) : ReaderM ContainerHeader := do
  let storage := (← get).storage
  ReaderM.seekTo Envelope.magicOffset
  let version ← readVersion
  let distribution ← ReaderM.number 1
  let kind ← ReaderM.number 1
  let oldGeneration ← ReaderM.number 1
  let keyAreaKind ← KeyAreaKind.ofNumber (← ReaderM.number 1)
  let contentSize ← ReaderM.number 8
  let programId ← ReaderM.number 8
  let contentIndex ← ReaderM.number 4
  let sdkVersion ← ReaderM.number 4
  let generation ← ReaderM.number 1
  let signatureGeneration ← ReaderM.number 1
  ReaderM.skip 0xE
  let rightsId ← ReaderM.block
  let ranges ← ReaderM.repeated 4 readRange
  let digests ← ReaderM.repeated 4 (ReaderM.exactly Sha256.size)
  let keyArea ← ReaderM.repeated 4 ReaderM.block
  let sections ← readSections 0 (ranges.zip digests)
  return { version, distribution := .ofCode distribution, kind := .ofCode kind,
           generation := max oldGeneration generation, keyAreaKind, contentSize, programId,
           contentIndex, sdkVersion, signatureGeneration, rightsId, ranges, digests, keyArea, sections,
           encrypted, storage }

/-- The header that a storage holds in plain text. -/
def ofStorage (storage : Storage) (encrypted : Bool) : SessionM ContainerHeader :=
  (readPlain encrypted).run' ⟨storage, 0⟩

/-- The header of a container. It is taken as encrypted unless its magic stands there in plain
    text. -/
def read (ring : KeyRing) (content : Storage) : SessionM ContainerHeader := do
  if content.size < Envelope.size then throw (.format (.shortContainer content.size))
  let bytes ← content.read 0 Envelope.size
  if (ContainerVersion.ofMagic? (Envelope.magic bytes)).isSome then ofStorage (.ofBytes bytes) false
  else ofStorage (.ofBytes (← decryptHeader (← ring.headerKey) bytes)) true

/-! ## Contents -/

/-- A section that is present: where it lies, and its header. -/
def section? (header : ContainerHeader) (index : Nat) : Option (UnitRange × SectionHeader) := do
  let range ← header.ranges[index]?
  let sectionHeader ← (header.sections[index]?).join
  return (range, sectionHeader)

/-- The content is encrypted with a title key. -/
def hasRightsId (header : ContainerHeader) : Bool := !header.rightsId.toBytes.isZero

/-- The index of the keys of the header's generation. Generations zero and one share index zero. -/
def generationIndex (header : ContainerHeader) : Nat := header.generation - 1

def keyAreaKeys (header : ContainerHeader) (ring : KeyRing) : Except Error (List Aes.Block) := do
  let key ← ring.keyAreaKey header.keyAreaKind header.generationIndex
  return header.keyArea.map (Aes.decryptBlock key)

def titleKey (header : ContainerHeader) (ring : KeyRing) : Except Error Aes.Block := do
  if !header.hasRightsId then throw (.missingKey "rights ID" .title)
  let wrapped ← ring.titleKey header.rightsId
  let kek ← ring.titleKek header.generationIndex
  return Aes.decryptBlock kek wrapped

/-- Checks the signature with the fixed key, which covers the second `0x200` bytes. -/
def verifySignature (header : ContainerHeader) (ring : KeyRing) : SessionM Validity := do
  match ring.known? ⟨.contentHeaderModulus, header.signatureGeneration⟩ with
  | none => return .missingKey
  | some modulus =>
    let signature ← header.storage.read 0 0x100
    let message ← header.storage.read Envelope.magicOffset 0x200
    Rsa.verifyPss modulus message signature

end ContainerHeader

end SealedContent
