import SealedContent.Archive.HashedPartition
import SealedContent.Container.Basic

/-! # Game cards

The image of a game card. Behind a signature stands the card's header, which says where the root
partition lies. The root lists the other partitions, and those hold the containers.

* `CardHeader.read` — the header with the table of the root partition.
* `CardHeader.info` — the encrypted part of the header.
* `GameCard.ofStorage`, `GameCard.root`, `GameCard.openPartition`, `GameCard.openContainer` — from the
  image of a card down to a container.
-/

namespace SealedContent

/-! ## Headers -/

/-- The header of a card. -/
structure CardHeader where
  /-- Where the normal area starts. -/
  romAreaStart : Nat
  keyIndices : Nat
  /-- A code for the size of the card. -/
  romSize : Nat
  version : Nat
  flags : Nat
  packageId : Nat
  /-- Where the valid data ends. -/
  validDataEnd : Nat
  /-- The initial vector of the encrypted part, last byte first. -/
  reversedIv : Bytes
  /-- The header of the root partition. -/
  rootHeader : Region
  /-- The SHA-256 of the header of the root partition. -/
  rootDigest : Bytes
  initialDataDigest : Bytes
  securityMode : Nat
  encryptedInfo : Bytes
  root : ArchiveTable HashedFile

/-- The encrypted part of a card's header. -/
structure CardInfo where
  firmwareVersion : Nat
  accessControl : Nat
  firmwareMode : Nat
  updateVersion : Nat
  updateDigest : Bytes
  updateId : Nat
deriving DecidableEq, Repr

namespace CardHeader

/-- Where the header starts: behind the key area and the signature. -/
def offset : Nat := 0x1100

/-- Reads a header and the table of the root partition. -/
def read : ReaderM CardHeader := do
  ReaderM.seekTo offset
  ReaderM.magic "HEAD"
  let romAreaStart ← ReaderM.number 4
  ReaderM.skip 4
  let keyIndices ← ReaderM.number 1
  let romSize ← ReaderM.number 1
  let version ← ReaderM.number 1
  let flags ← ReaderM.number 1
  let packageId ← ReaderM.number 8
  let validDataEnd ← ReaderM.number 4
  ReaderM.skip 4
  let reversedIv ← ReaderM.exactly 0x10
  let rootOffset ← ReaderM.number 8
  let rootSize ← ReaderM.number 8
  let rootDigest ← ReaderM.exactly Sha256.size
  let initialDataDigest ← ReaderM.exactly Sha256.size
  let securityMode ← ReaderM.number 4
  ReaderM.skip 12
  let encryptedInfo ← ReaderM.exactly 0x70
  -- The table counts its data from the start of the card.
  ReaderM.seekTo rootOffset
  let root ← HashedPartition.readTable
  return { romAreaStart := mediaBytes romAreaStart, keyIndices, romSize, version, flags, packageId,
           validDataEnd := mediaBytes validDataEnd, reversedIv, rootHeader := ⟨rootOffset, rootSize⟩,
           rootDigest, initialDataDigest, securityMode, encryptedInfo, root }

/-- The size of the card in words. -/
def capacity (header : CardHeader) : String :=
  match header.romSize with
  | 0xFA => "1 GB"
  | 0xF8 => "2 GB"
  | 0xF0 => "4 GB"
  | 0xE0 => "8 GB"
  | 0xE1 => "16 GB"
  | 0xE2 => "32 GB"
  | _ => "unknown"

/-- Decrypts the encrypted part. -/
def info (header : CardHeader) (ring : KeyRing) : Except Error CardInfo := do
  let some key := ring.single? .gameCardHeaderKey
    | throw (.missingKey KeyFamily.gameCardHeaderKey.name .common)
  let bytes ← Aes.cbcDecrypt key (.ofBytes header.reversedIv.reverse) header.encryptedInfo
  return { firmwareVersion := ← bytes.numberAt 0x00 8, accessControl := ← bytes.numberAt 0x08 4,
           firmwareMode := ← bytes.numberAt 0x1C 4, updateVersion := ← bytes.numberAt 0x20 4,
           updateDigest := ← bytes.bytesAt 0x28 8, updateId := ← bytes.numberAt 0x30 8 }

end CardHeader

/-! ## Cards -/

/-- The image of a card. -/
structure GameCard where
  storage : Storage
  header : CardHeader

namespace GameCard

def ofStorage (storage : Storage) : SessionM GameCard := do
  return ⟨storage, ← CardHeader.read.run' ⟨storage, 0⟩⟩

/-- Checks the hash of the header of the root partition. -/
def verifyRoot (card : GameCard) : SessionM Validity := do
  let bytes ← card.storage.readRegion card.header.rootHeader
  return .ofBool (Sha256.digest bytes == card.header.rootDigest)

/-- The root partition, which extends to the end of the image. -/
def root (card : GameCard) : SessionM HashedPartition := do
  let offset := card.header.rootHeader.offset
  HashedPartition.ofStorage (← card.storage.window offset (card.storage.size - offset))

/-- The root partition lists a partition. -/
def hasPartition (card : GameCard) (name : String) : Bool :=
  (HashedPartition.tableFile? card.header.root name).isSome

def openPartition (card : GameCard) (name : String) : SessionM HashedPartition := do
  let root ← card.root
  match root.file? name with
  | none => throw (.format (.partitionAbsent name))
  | some file => HashedPartition.ofStorage (← root.openFile file)

/-- A container in a partition of the card. -/
def openContainer (card : GameCard) (ring : KeyRing) (partition name : String)
    (options : ReadOptions) : SessionM Container := do
  let partition ← card.openPartition partition
  match partition.file? name with
  | none => throw (.format (.partitionFileAbsent name))
  | some file => Container.ofStorage ring (← partition.openFile file) options

end GameCard

end SealedContent
