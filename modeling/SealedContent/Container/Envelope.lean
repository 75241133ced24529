import SealedContent.Aes.Modes

/-! # Encrypted headers

The first `0xC00` bytes of a container are encrypted with AES-XTS in sectors of `0x200` bytes: two
sectors for the container's header and one for each section header. The version of the container,
which its magic tells, says how the sectors of the section headers are numbered.

* `ContainerVersion` — the versions that are handled.
* `encryptHeader` and `decryptHeader` — the header under its key, each the inverse of the other.
-/

namespace SealedContent

/-- A version of the container format. -/
inductive ContainerVersion where
  | two
  | three
deriving DecidableEq, Repr

namespace ContainerVersion

def number : ContainerVersion → Nat
  | two => 2
  | three => 3

def ofMagic? (magic : Bytes) : Option ContainerVersion :=
  if magic = .ofAscii "NCA3" then some three
  else if magic = .ofAscii "NCA2" then some two
  else none

/-- The magic belongs to one of the two first versions, which are not handled. -/
def isOldMagic (magic : Bytes) : Bool := magic == .ofAscii "NCA1" || magic == .ofAscii "NCA0"

/-- The number of the sector of a section header. Version two encrypts each as a sector zero. -/
def sector (version : ContainerVersion) (index : Nat) : Nat :=
  match version with
  | two => 0
  | three => index + 2

end ContainerVersion

namespace Envelope

def size : Nat := 0xC00

def sectorSize : Nat := 0x200

/-- Where the magic lies. -/
def magicOffset : Nat := 0x200

def sectionsOffset : Nat := 0x400

def magic (plain : Bytes) : Bytes := plain.window magicOffset 4

/-- The four section headers, each under a function of its sector number. -/
def mapSections (f : (sector : Nat) → Bytes → Except Error Bytes) (version : ContainerVersion)
    (header : Bytes) : Except Error Bytes := do
  let sections ← (List.range 4).mapM fun index =>
    f (version.sector index) (header.window (sectionsOffset + index * sectorSize) sectorSize)
  return sections.flatten

end Envelope

open Envelope in
/-- Decrypts the header of a container. -/
def decryptHeader (key : Aes.XtsKey) (header : Bytes) : Except Error Bytes := do
  let front ← Aes.xtsDecrypt key 0 sectorSize (header.take sectionsOffset)
  match ContainerVersion.ofMagic? (magic front) with
  | some version =>
    return front ++ (← mapSections (Aes.xtsDecrypt key · sectorSize) version header)
  | none =>
    if ContainerVersion.isOldMagic (magic front) then throw (.layout .oldEncryptedHeader)
    throw (.format .decryptedHeaderMagic)

open Envelope in
/-- Encrypts the header of a container. -/
def encryptHeader (key : Aes.XtsKey) (plain : Bytes) : Except Error Bytes := do
  let some version := ContainerVersion.ofMagic? (magic plain) | throw (.format .headerMagic)
  let front ← Aes.xtsEncrypt key 0 sectorSize (plain.take sectionsOffset)
  return front ++ (← mapSections (Aes.xtsEncrypt key · sectorSize) version plain)

end SealedContent
