import SealedContent.Keys.Ring
import SealedContent.Storage.Reader
import SealedContent.Text.Utf8

/-! # Tickets

A ticket delivers the title key of a rights ID. A signature whose size depends on its kind comes
first, the fields follow.

* `Ticket.read` — the ticket at the position of a reader.
* `Ticket.titleKey` — the title key, still wrapped with the key of its generation. A common ticket
  holds it as it is, a personalized one encrypts it to the console.
* `KeyRing.register` adds it to a key ring.
-/

namespace SealedContent

/-- The kind of a ticket's signature. -/
inductive SignatureKind where
  | rsa4096Sha1 | rsa2048Sha1 | ecdsaSha1 | rsa4096Sha256 | rsa2048Sha256 | ecdsaSha256
deriving DecidableEq, Repr

namespace SignatureKind

def ofCode : Nat → Except Error SignatureKind
  | 0x10000 => .ok rsa4096Sha1
  | 0x10001 => .ok rsa2048Sha1
  | 0x10002 => .ok ecdsaSha1
  | 0x10003 => .ok rsa4096Sha256
  | 0x10004 => .ok rsa2048Sha256
  | 0x10005 => .ok ecdsaSha256
  | code => .error (.format (.ticketSignature code))

/-- The number of bytes of a signature with its padding. -/
def size : SignatureKind → Nat
  | rsa4096Sha1 | rsa4096Sha256 => 0x200 + 0x3C
  | rsa2048Sha1 | rsa2048Sha256 => 0x100 + 0x3C
  | ecdsaSha1 | ecdsaSha256 => 0x3C + 0x40

end SignatureKind

/-- Whom the title key of a ticket is for. -/
inductive TicketKind where
  | common | personalized
deriving DecidableEq, Repr

def TicketKind.ofCode : Nat → Except Error TicketKind
  | 0 => .ok common
  | 1 => .ok personalized
  | code => .error (.format (.titleKeyKind code))

/-- A ticket. -/
structure Ticket where
  signature : SignatureKind
  issuer : String
  /-- `0x100` bytes that hold the title key. -/
  keyBlock : Bytes
  format : Nat
  kind : TicketKind
  version : Nat
  license : Nat
  generation : Nat
  properties : Nat
  ticketId : Nat
  deviceId : Nat
  rightsId : RightsId
  accountId : Nat
deriving DecidableEq, Repr

namespace Ticket

def read : ReaderM Ticket := do
  let base ← ReaderM.position
  let signature ← SignatureKind.ofCode (← ReaderM.number 4)
  -- The signature itself is not needed.
  ReaderM.seekTo (base + 4 + signature.size)
  let issuer ← ReaderM.exactly 0x40
  let keyBlock ← ReaderM.exactly 0x100
  let format ← ReaderM.number 1
  let kind ← TicketKind.ofCode (← ReaderM.number 1)
  let version ← ReaderM.number 2
  let license ← ReaderM.number 1
  let generation ← ReaderM.number 1
  let properties ← ReaderM.number 2
  ReaderM.skip 8
  let ticketId ← ReaderM.number 8
  let deviceId ← ReaderM.number 8
  let rightsId ← ReaderM.block
  let accountId ← ReaderM.number 4
  return { signature, issuer := Utf8.decodeLossy (issuer.takeWhile (· != 0)), keyBlock, format, kind,
           version, license, generation, properties, ticketId, deviceId, rightsId, accountId }

def titleKey (ticket : Ticket) (ring : KeyRing) : Except Error Aes.Block :=
  match ticket.kind with
  | .common => .ok (.ofBytes (ticket.keyBlock.take 16))
  | .personalized => do
    let some key := ring.ticketKey | throw (.missingKey "eticket_rsa_keypair" .deviceUnique)
    let plain ← key.decryptOaep ticket.keyBlock
    if plain.length ≠ 16 then throw (.format (.titleKeyLength plain.length))
    return .ofBytes plain

end Ticket

/-- The ring with the title key of a ticket. -/
def KeyRing.register (ring : KeyRing) (ticket : Ticket) : Except Error KeyRing := do
  return ring.addTitleKey ticket.rightsId (← ticket.titleKey ring)

end SealedContent
