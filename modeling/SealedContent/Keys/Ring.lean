import SealedContent.Keys.Family
import SealedContent.Keys.TitleKeys
import SealedContent.Rsa.PrivateKey

/-! # Key rings

`KeyRing` holds the known keys: a value for every known slot, the title keys and the console's ticket
key. A key of zeros only counts as unknown, and a stored value always has the length of its slot.

`headerKey`, `keyAreaKey`, `titleKek` and `titleKey` fetch a key or fail naming what is missing.
-/

namespace SealedContent

/-- The bytes are a known key for the slot: it exists, they have its length and are not all zero. -/
def Slot.Holds (slot : Slot) (bytes : Bytes) : Prop :=
  slot.Exists ∧ bytes.length = slot.family.length ∧ bytes.isZero = false

/-- All keys at hand. -/
structure KeyRing where
  /-- The value of a slot, if it is known. -/
  known? : Slot → Option Bytes
  /-- Encrypted title keys. -/
  titleKeys : TitleKeys
  /-- The console's key for personalized tickets. -/
  ticketKey : Option Rsa.PrivateKey
  holds : ∀ slot bytes, known? slot = some bytes → slot.Holds bytes

namespace KeyRing

/-- No key at all. -/
def empty : KeyRing where
  known? _ := none
  titleKeys := .empty
  ticketKey := none
  holds := by simp

instance : Inhabited KeyRing := ⟨empty⟩

/-! ## Slots -/

/-- The slot of a family with a number. A single family has one slot, whatever the number. -/
def slot (family : KeyFamily) (index : Nat) : Slot :=
  match family.count? with
  | some _ => ⟨family, index⟩
  | none => ⟨family, 0⟩

/-- The bytes of an existing slot, zeros if its key is unknown. -/
def bytes? (ring : KeyRing) (slot : Slot) : Option Bytes :=
  if slot.Exists then some ((ring.known? slot).getD (Bytes.zeros slot.family.length)) else none

/-- The ring with a slot overwritten. Zeros make the key unknown; a value that is not of the slot's
    length, or for no slot, changes nothing. -/
def set (ring : KeyRing) (slot : Slot) (bytes : Bytes) : KeyRing :=
  if h : slot.Exists ∧ bytes.length = slot.family.length then
    { ring with
      known? := fun other =>
        if other = slot then (if bytes.isZero then none else some bytes) else ring.known? other
      holds := by
        intro other value hvalue
        split at hvalue
        · next heq =>
          split at hvalue
          · cases hvalue
          · next hzero =>
            cases hvalue
            subst heq
            exact ⟨h.1, h.2, by simpa using hzero⟩
        · exact ring.holds other value hvalue }
  else ring

def block? (ring : KeyRing) (family : KeyFamily) (index : Nat) : Option Aes.Block :=
  (ring.known? ⟨family, index⟩).map Aes.Block.ofBytes

/-- The known key of a single family of 16-byte keys. -/
def single? (ring : KeyRing) (family : KeyFamily) : Option Aes.Block := ring.block? family 0

def xtsKey? (ring : KeyRing) (family : KeyFamily) (index : Nat) : Option Aes.XtsKey :=
  (ring.known? ⟨family, index⟩).map Aes.XtsKey.ofBytes

def setBlock (ring : KeyRing) (family : KeyFamily) (index : Nat) (key : Aes.Block) : KeyRing :=
  ring.set ⟨family, index⟩ key.toBytes

/-! ## Keys that an operation needs -/

def headerKey (ring : KeyRing) : Except Error Aes.XtsKey :=
  match ring.xtsKey? .headerKey 0 with
  | some key => .ok key
  | none => .error (.missingKey "header_key" .common)

/-- The key of a key area for one content kind and generation. -/
def keyAreaKey (ring : KeyRing) (kind : KeyAreaKind) (generation : Nat) : Except Error Aes.Block :=
  match ring.block? (.keyAreaKey kind) generation with
  | some key => .ok key
  | none =>
    .error (.missingKey s!"key_area_key_{kind.name}_{Hex.twoDigits generation}" .common)

/-- The key that wraps the title keys of a generation. -/
def titleKek (ring : KeyRing) (generation : Nat) : Except Error Aes.Block :=
  match ring.block? .titleKek generation with
  | some key => .ok key
  | none => .error (.missingKey s!"titlekek_{Hex.twoDigits generation}" .common)

/-- The encrypted title key of a rights ID. -/
def titleKey (ring : KeyRing) (id : RightsId) : Except Error Aes.Block :=
  match (ring.titleKeys.get? id).filter fun key => !key.toBytes.isZero with
  | some key => .ok key
  | none => .error (.missingKey (Hex.upper id.toBytes) .title)

/-- The ring with an encrypted title key added. -/
def addTitleKey (ring : KeyRing) (id : RightsId) (key : Aes.Block) : KeyRing :=
  { ring with titleKeys := ring.titleKeys.insert id key }

/-- The ring with the ticket key of a modulus and private exponent, and the warnings of its
    recovery. -/
def setTicketKey (ring : KeyRing) (modulus exponent : Bytes) (random : Rsa.Randomness) :
    Except Error KeyRing × List Warning :=
  let (key, warnings) :=
    Rsa.recover modulus (BigEndian.encode 4 Rsa.publicExponent) exponent random
  (key.map fun key => { ring with ticketKey := some key }, warnings)

end KeyRing

end SealedContent
