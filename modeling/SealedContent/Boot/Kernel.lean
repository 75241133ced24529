import SealedContent.Boot.KeyTrial
import SealedContent.Bytes.Fields
import SealedContent.Storage.Basic

/-! # Kernel packages

The package of the kernel and the system modules that are part of it, with magic `PK21`. Its header
has `0x200` bytes: a signature, the counter of the header, and what the counter encrypts. Four
sections follow back to back, each encrypted under a counter of its own.

* `KernelHeader.decode` — the header in plain text.
* `KernelPackage.ofStorage` finds the key and decrypts the header.
* `KernelPackage.openSection`, `KernelPackage.verifySection` — a section, and the check of its hash.
* `KernelPackage.verifySignature` — the signature over the header as stored.
-/

namespace SealedContent

/-! ## Headers -/

/-- A section as the header describes it. -/
structure KernelSection where
  counter : Aes.Block
  size : Nat
  /-- The address it is loaded to. -/
  address : Nat
  digest : Bytes
deriving DecidableEq, Repr

/-- The header of a kernel package. -/
structure KernelHeader where
  counter : Aes.Block
  baseOffset : Nat
  versionMax : Nat
  versionMin : Nat
  sections : List KernelSection
deriving DecidableEq, Repr

namespace KernelHeader

def size : Nat := 0x200

/-- The size of the signature in front of a header. -/
def signatureSize : Nat := 0x100

def sectionCount : Nat := 4

/-- The magic of a header in plain text. -/
def hasMagic (plain : Bytes) : Bool := plain.window 0x150 4 == .ofAscii "PK21"

/-- The header as stored, decrypted. The signature and the counter are not encrypted. -/
def decrypt (key : Aes.Block) (stored : Bytes) : Bytes :=
  let counter := stored.window signatureSize 0x10
  let plain := Aes.ctr key (.ofBytes counter) (stored.drop signatureSize)
  stored.take signatureSize ++ counter ++ plain.drop 0x10

def sectionAt (plain : Bytes) (number : Nat) : Except Error KernelSection := do
  return { counter := .ofBytes (← plain.bytesAt (0x110 + number * 0x10) 0x10)
           size := ← plain.numberAt (0x160 + number * 4) 4
           address := ← plain.numberAt (0x170 + number * 4) 4
           digest := ← plain.bytesAt (0x180 + number * 0x20) 0x20 }

def decode (plain : Bytes) : Except Error KernelHeader := do
  return { counter := .ofBytes (← plain.bytesAt signatureSize 0x10)
           baseOffset := ← plain.numberAt 0x154 4
           versionMax := ← plain.numberAt 0x15C 1
           versionMin := ← plain.numberAt 0x15D 1
           sections := ← (List.range sectionCount).mapM (sectionAt plain) }

/-- Where the section with a number starts: behind the header and the sections before it. -/
def sectionStart (header : KernelHeader) (number : Nat) : Nat :=
  (header.sections.take number).foldl (fun offset part => offset + part.size) size

end KernelHeader

/-! ## Packages -/

/-- A kernel package. -/
structure KernelPackage where
  storage : Storage
  /-- The generation of the key. -/
  generation : Nat
  key : Aes.Block
  header : KernelHeader
  /-- The header as stored. -/
  storedHeader : Bytes

namespace KernelPackage

def ofStorage (ring : KeyRing) (storage : Storage) : SessionM KernelPackage := do
  let stored ← storage.read 0 KernelHeader.size
  let opens (key : Aes.Block) : Bool := KernelHeader.hasMagic (KernelHeader.decrypt key stored)
  let (generation, key) ← ring.oldestOpening .package2Key opens .kernelKeys
  let header ← KernelHeader.decode (KernelHeader.decrypt key stored)
  -- Where a section behind the last one would start is where the last one ends.
  if storage.size < header.sectionStart KernelHeader.sectionCount then
    throw (.format .kernelTooLong)
  return ⟨storage, generation, key, header, stored⟩

/-- Checks the signature over what follows it. -/
def verifySignature (package : KernelPackage) (ring : KeyRing) : Except Error Validity :=
  match ring.known? ⟨.package2Modulus, 0⟩ with
  | none => .ok .missingKey
  | some modulus =>
    Rsa.verifyPss modulus (package.storedHeader.drop KernelHeader.signatureSize)
      (package.storedHeader.take KernelHeader.signatureSize)

def sectionAt (package : KernelPackage) (index : Nat) : Except Error KernelSection :=
  match package.header.sections[index]? with
  | some found => .ok found
  | none => .error (.format (.kernelSection index))

def openSection (package : KernelPackage) (index : Nat) : Except Error Storage := do
  let part ← package.sectionAt index
  let raw ← package.storage.window (package.header.sectionStart index) part.size
  return .decrypt raw (.ctr package.key part.counter)

/-- Checks the hash of a section. A mismatch is a warning too. -/
def verifySection (package : KernelPackage) (index : Nat) : SessionM Validity := do
  let part ← package.sectionAt index
  let bytes ← (← package.openSection index).readAll
  if Sha256.digest bytes = part.digest then return .valid
  SessionM.warn (.packageHash index)
  return .invalid

end KernelPackage

end SealedContent
