import SealedContent.Error
import SealedContent.Sha256

/-! # RSA public keys

Modular powers, the keys that are accepted, and the two signature schemes over SHA-256:

* `powMod` — a power modulo a number, one bit of the exponent at a time.
* `PublicKey.isWellFormed` and `PublicKey.isAcceptable` — what is required of the numbers of a key.
* `verifyPkcs1`, `verifyPss` — signatures under the exponent 65537.
-/

namespace SealedContent.Rsa

/-! ## Modular powers -/

def powMod (modulus base exponent : Nat) : Nat :=
  if _h : exponent = 0 then 1 % modulus
  else
    let half := powMod modulus (base * base % modulus) (exponent / 2)
    if exponent % 2 = 0 then half else base * half % modulus
termination_by exponent
decreasing_by omega

/-! ## Keys -/

/-- The exponent of every public key in use. -/
def publicExponent : Nat := 65537

/-- The number of bits of a number; zero has none. -/
def bitLength (n : Nat) : Nat := if n = 0 then 0 else n.log2 + 1

/-- A modulus and an exponent. -/
structure PublicKey where
  n : Nat
  e : Nat
deriving DecidableEq, Repr

def PublicKey.size (key : PublicKey) : Nat := (bitLength key.n + 7) / 8

/-- An exponent from 2 to `2 ^ 33 - 1` below the modulus, and both odd. -/
def PublicKey.isWellFormed (key : PublicKey) : Bool :=
  key.e < key.n && key.n % 2 == 1 && key.e % 2 == 1 && 2 ≤ key.e && key.e < 1 <<< 33

/-- The most bits of a modulus that signatures are checked under. -/
def PublicKey.maxBits : Nat := 4096

/-- Well formed, and short enough to check signatures under. -/
def PublicKey.isAcceptable (key : PublicKey) : Bool :=
  bitLength key.n ≤ PublicKey.maxBits && key.isWellFormed

/-- The key with a given big-endian modulus and the usual exponent. -/
def PublicKey.ofModulus (modulus : Bytes) : Except Error PublicKey :=
  let key : PublicKey := ⟨BigEndian.decode modulus, publicExponent⟩
  if key.isAcceptable then .ok key else .error (.crypto .rsaModulus)

/-- The padded message that a signature opens to. A signature has exactly the length of the
    modulus; one that is not below the modulus stands for its residue. -/
def PublicKey.opened? (key : PublicKey) (signature : Bytes) : Option Bytes :=
  if signature.length = key.size then
    some (BigEndian.encode key.size (powMod key.n (BigEndian.decode signature) key.e))
  else none

/-! ## PKCS#1 v1.5 -/

/-- The identifier that precedes a SHA-256 digest. -/
def digestInfo : Bytes :=
  [0x30, 0x31, 0x30, 0x0d, 0x06, 0x09, 0x60, 0x86, 0x48, 0x01, 0x65, 0x03, 0x04, 0x02, 0x01, 0x05,
    0x00, 0x04, 0x20]

/-- The padded form of a digest in `size` bytes; at least eight filler bytes must fit. -/
def paddedDigest? (size : Nat) (digest : Bytes) : Option Bytes :=
  let body := digestInfo ++ digest
  if size < body.length + 11 then none
  else some ([0x00, 0x01] ++ List.replicate (size - body.length - 3) 0xff ++ [0x00] ++ body)

/-- Whether a PKCS#1 v1.5 signature over the SHA-256 of a message holds. It must be below the
    modulus. -/
def verifyPkcs1 (modulus message signature : Bytes) : Except Error Validity := do
  let key ← PublicKey.ofModulus modulus
  let expected := paddedDigest? key.size (Sha256.digest message)
  return .ofBool (BigEndian.decode signature < key.n && expected.isSome &&
    key.opened? signature == expected)

/-! ## PSS -/

/-- The first `length` bytes of the mask generated by a seed: the digests of the seed followed by a
    counter. -/
def mask (seed : Bytes) (length : Nat) : Bytes :=
  ((List.range ((length + 31) / 32)).flatMap fun i =>
    Sha256.digest (seed ++ BigEndian.encode 4 i)).take length

/-- The length of the salt, that of a digest. -/
def saltLength : Nat := 32

/-- Whether the opened signature `padded` of a key of `bits` bits belongs to a digest. -/
def pssHolds (bits : Nat) (padded digest : Bytes) : Bool :=
  let emBits := bits - 1
  let emLength := (emBits + 7) / 8
  let em : Bytes := padded.drop (padded.length - emLength)
  let spare := 8 * emLength - emBits
  -- The encoding holds a masked block, the hash that seeds its mask, and a fixed last byte.
  if emLength < digest.length + saltLength + 2 then false
  else
    let masked : Bytes := em.take (emLength - digest.length - 1)
    let hash := em.window masked.length digest.length
    let first := (masked.headD 0).toNat
    let block := masked.xor (mask hash masked.length)
    let cleared : Bytes := match block with
      | [] => []
      | b :: rest => UInt8.ofNat (b.toNat % (1 <<< (8 - spare))) :: rest
    -- Unmasked, the block holds zeros, a one and the salt.
    let filler := emLength - digest.length - saltLength - 2
    let salt := cleared.drop (filler + 1)
    em.getLast? == some 0xbc && first < 1 <<< (8 - spare) && Bytes.isZero (cleared.take filler) &&
      cleared[filler]? == some 1 && Sha256.digest (Bytes.zeros 8 ++ digest ++ salt) == hash

/-- Whether a PSS signature over the SHA-256 of a message holds. It need not be below the modulus. -/
def verifyPss (modulus message signature : Bytes) : Except Error Validity := do
  let key ← PublicKey.ofModulus modulus
  return .ofBool <| match key.opened? signature with
    | some padded => pssHolds (bitLength key.n) padded (Sha256.digest message)
    | none => false

end SealedContent.Rsa
