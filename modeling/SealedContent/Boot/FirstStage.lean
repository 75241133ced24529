import SealedContent.Boot.KeyTrial
import SealedContent.Bytes.Fields
import SealedContent.Storage.Basic

/-! # First stage packages

The package of the first boot stage. Behind a loader in plain text stands an encrypted blob with magic
`PK11`: a header of `0x20` bytes and three sections.

* `FirstStage.ofEncrypted` finds the key and decrypts the blob, `FirstStage.ofStorage` reads it first.
* `FirstStage.openSection` — a section of the blob.
-/

namespace SealedContent

/-- The sections of a first stage package. -/
inductive FirstStageSection where
  | warmboot
  | bootloader
  | secureMonitor
deriving DecidableEq, Repr

/-- A first stage package. -/
structure FirstStage where
  /-- The generation of the key. -/
  generation : Nat
  counter : Aes.Block
  /-- The blob in plain text. -/
  blob : Bytes
  /-- Where each section lies in the blob. -/
  region : FirstStageSection → Region

namespace FirstStage

def sizeOffset : Nat := 0x3FE0

def counterOffset : Nat := 0x3FF0

def blobOffset : Nat := 0x4000

def headerSize : Nat := 0x20

/-- Where the section with a number lies in a blob. It has to lie inside the blob. -/
def regionAt (blob : Bytes) (number : Nat) : Except Error Region := do
  let size ← blob.numberAt (4 + number * 8) 4
  let offset ← blob.numberAt (8 + number * 8) 4
  if blob.length < headerSize + offset + size then throw (.format (.firstStageSection number))
  return ⟨headerSize + offset, size⟩

/-- The package in an encrypted blob, which is as long as a header at least. -/
def ofEncrypted (ring : KeyRing) (counter : Aes.Block) (encrypted : Bytes) : Except Error FirstStage := do
  -- A key is judged by the magic alone; the rest is decrypted with the key that yields it.
  let opens (key : Aes.Block) : Bool := Aes.ctr key counter (encrypted.take 4) == .ofAscii "PK11"
  let (generation, key) ← ring.oldestOpening .package1Key opens .firstStageKeys
  let blob := Aes.ctr key counter encrypted
  let warmboot ← regionAt blob 0
  let bootloader ← regionAt blob 1
  let secureMonitor ← regionAt blob 2
  let region : FirstStageSection → Region
    | .warmboot => warmboot
    | .bootloader => bootloader
    | .secureMonitor => secureMonitor
  return { generation, counter, blob, region }

def ofStorage (ring : KeyRing) (storage : Storage) : SessionM FirstStage := do
  let size := LittleEndian.decode (← storage.read sizeOffset 4)
  let counter := Aes.Block.ofBytes (← storage.read counterOffset 0x10)
  if size < headerSize then throw (.format (.firstStageSize size))
  ofEncrypted ring counter (← storage.read blobOffset size)

def storage (package : FirstStage) : Storage := .ofBytes package.blob

def openSection (package : FirstStage) (part : FirstStageSection) : Except Error Storage :=
  package.storage.regionWindow (package.region part)

end FirstStage

end SealedContent
