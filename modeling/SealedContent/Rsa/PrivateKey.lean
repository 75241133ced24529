import SealedContent.Rsa.PublicKey

/-! # RSA private keys

`recover` finds the factors of a modulus from both exponents and completes the key, and
`PrivateKey.decryptOaep` uses such a key.

`e * d - 1` is a multiple of the order of every unit modulo `n`. Written as `2 ^ t * r` with `r`
odd, a witness raised to `r` and squared again and again reaches 1, for at least half of the
witnesses through a square root of 1 other than 1 and -1. Such a root reveals a factor.
-/

namespace SealedContent.Rsa

/-! ## Keys -/

/-- A private key with its factors and the parameters that the Chinese remainder theorem uses. -/
structure PrivateKey where
  n : Nat
  e : Nat
  d : Nat
  p : Nat
  q : Nat
  dp : Nat
  dq : Nat
  qInv : Nat
deriving DecidableEq, Repr

def PrivateKey.publicKey (key : PrivateKey) : PublicKey := ⟨key.n, key.e⟩

/-- The modulus in as few big-endian bytes as hold it. -/
def PrivateKey.modulus (key : PrivateKey) : Bytes := BigEndian.minimal key.n

def PrivateKey.modulusLength (key : PrivateKey) : Nat := key.modulus.length

/-- The public half is well formed, of any length, the factors multiply to the modulus and are
    coprime, and the exponents undo each other modulo each factor less one. -/
def PrivateKey.isConsistent (key : PrivateKey) : Bool :=
  key.publicKey.isWellFormed && 1 ≤ key.p && 1 ≤ key.q && key.p * key.q == key.n &&
    (key.e * key.d - 1) % (key.p - 1) == 0 && (key.e * key.d - 1) % (key.q - 1) == 0 &&
    Nat.gcd key.p key.q == 1

def PrivateKey.check (key : PrivateKey) : Except Error Unit :=
  if key.isConsistent then .ok () else .error (.crypto .rsaInconsistent)

/-! ## Recovery -/

/-- A source of random bytes. -/
abbrev Randomness := Nat → UInt8

def maxWitnesses : Nat := 100

/-- Divides by two while that is possible; gives the number of divisions and the odd rest. -/
def splitTwos (k : Nat) : Nat × Nat :=
  if _h : k ≠ 0 ∧ k % 2 = 0 then
    let (t, r) := splitTwos (k / 2)
    (t + 1, r)
  else (0, k)
termination_by k
decreasing_by omega

/-- The witness with a number: as many random bytes as the modulus has, brought into the range from
    2 to `n - 2`. -/
def witness (n : Nat) (random : Randomness) (number : Nat) : Nat :=
  let length := (BigEndian.minimal n).length
  let bytes := (List.range length).map fun i => random (number * length + i)
  BigEndian.decode bytes % (n - 3) + 2

/-- Squares a residue up to `t` times. The last residue before 1 reveals a factor, unless it is -1
    or shares nothing with the modulus. -/
def squareRootFactor? (n : Nat) : (t y : Nat) → Option Nat
  | 0, _ => none
  | t + 1, y =>
    let x := powMod n y 2
    if x = 1 then
      let p := Nat.gcd (y - 1) n
      if p ≠ 1 ∧ p ≠ n then some p else none
    else if x = n - 1 then none
    else squareRootFactor? n t x

/-- The factor that a witness reveals, where `2 ^ t * r` is `e * d - 1`. -/
def factor? (n t r w : Nat) : Option Nat :=
  let y := powMod n w r
  if y = 1 ∨ y = n - 1 then none else squareRootFactor? n t y

/-- The key with a given factor. The larger factor comes first. -/
def PrivateKey.ofFactor (n e d factor : Nat) : PrivateKey :=
  let other := n / factor
  let p := max factor other
  let q := min factor other
  { n, e, d, p, q, dp := d % (p - 1), dq := d % (q - 1), qInv := powMod p q (p - 2) }

/-- The key of a modulus and both exponents, all big-endian, with the warnings of the search. -/
def recover (n e d : Bytes) (random : Randomness) : Except Error PrivateKey × List Warning :=
  let n := BigEndian.decode n
  let e := BigEndian.decode e
  let d := BigEndian.decode d
  if n ≤ 3 ∨ n % 2 = 0 ∨ e ≤ 1 ∨ d ≤ 1 then (.error (.crypto .rsaRange), [])
  else if (e * d - 1) % 2 = 1 then (.error .factorization, [])
  else
    let (t, r) := splitTwos (e * d - 1)
    match (List.range maxWitnesses).findSome? fun i => factor? n t r (witness n random i) with
    | some factor => (.ok (.ofFactor n e d factor), [])
    | none => (.error .factorization, [.recoveryGaveUp maxWitnesses])

/-- A source of bytes that differ from witness to witness, for keys whose recovery does not depend on
    the witnesses. -/
def fixedRandomness : Randomness := fun i =>
  (Sha256.digest (BigEndian.encode 8 (i / 32))).getD (i % 32) 0

/-! ## OAEP -/

/-- The inverse of `a` modulo `m`, where the two are coprime: with `x` the inverse of `m` modulo `a`,
    `m * (a - x) + 1` is a multiple of `a`. -/
def inverse (a m : Nat) : Nat :=
  if _h : a ≤ 1 then a
  else (m * (a - inverse (m % a) a) + 1) / a
termination_by a
decreasing_by exact Nat.mod_lt _ (by omega)

/-- The private operation: both residues from the factors, joined by the Chinese remainder theorem,
    and only if the result encrypts to the input again. The factors need not be prime: `qInv`, a power
    of `q`, is its inverse only modulo a prime, so the residues are joined with `inverse`. -/
def PrivateKey.decrypt? (key : PrivateKey) (c : Nat) : Option Nat :=
  if key.n ≤ c then none
  else
    let m1 := powMod key.p c key.dp
    let m2 := powMod key.q c key.dq
    let h := (m1 + key.p * (m2 / key.p + 1) - m2) % key.p * inverse key.q key.p % key.p
    let m := m2 + h * key.q
    if powMod key.n m key.e = c then some m else none

/-- The message in an opened OAEP block for the empty label: the digest of the label, zeros, a one
    and the message. -/
def oaepMessage? (padded : Bytes) : Option Bytes :=
  let maskedSeed := padded.window 1 32
  let maskedBlock : Bytes := padded.drop 33
  let seed := maskedSeed.xor (mask maskedBlock 32)
  let block := maskedBlock.xor (mask seed maskedBlock.length)
  match (block.drop 32).dropWhile (· == 0) with
  | 1 :: message =>
    if padded.head? == some 0 && block.take 32 == Sha256.digest [] then some message else none
  | _ => none

/-- Decrypts an OAEP ciphertext, hashed with SHA-256 under the empty label. A ciphertext is as long as
    the modulus. -/
def PrivateKey.decryptOaep (key : PrivateKey) (ciphertext : Bytes) : Except Error Bytes := do
  key.check
  let size := key.publicKey.size
  let message := do
    if ciphertext.length ≠ size then none
    let m ← key.decrypt? (BigEndian.decode ciphertext)
    if size < 2 * 32 + 2 then none else oaepMessage? (BigEndian.encode size m)
  match message with
  | some message => return message
  | none => throw (.crypto .oaep)

end SealedContent.Rsa
