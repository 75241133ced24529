import SealedContent.Aes.Block

/-! # The AES-128 block cipher

`encryptBlock` and `decryptBlock` transform one block under a 16-byte key. Both run over the round
keys of `roundKeys`; `encryptWith` and `decryptWith` take them ready made, so that many blocks share
one expansion.
-/

namespace SealedContent.Aes

/-! ## The field of bytes -/

/-- Multiplication by the field's generator polynomial `x`. -/
def double (b : UInt8) : UInt8 := if b &&& 0x80 = 0 then b <<< 1 else (b <<< 1) ^^^ 0x1b

/-- The product of two field elements, one bit of the second factor at a time. -/
def product (a b : UInt8) : UInt8 :=
  let step (state : UInt8 × UInt8 × UInt8) : UInt8 × UInt8 × UInt8 :=
    let (a, b, sum) := state
    (double a, b >>> 1, if b &&& 1 = 0 then sum else sum ^^^ a)
  (Nat.repeat step 8 (a, b, 0)).2.2

/-- The inverse of a field element, its 254th power; zero for zero. -/
def inverse (b : UInt8) : UInt8 :=
  let square (x : UInt8) : UInt8 := product x x
  (Nat.repeat (fun (power, x) => (product power (square x), square x)) 7 (1, b)).1

/-! ## Substitution -/

def rotl (b n : UInt8) : UInt8 := (b <<< n) ||| (b >>> (8 - n))

/-- The substitution of every byte: the inverse followed by an affine map. -/
def substitutions : Vector UInt8 256 := Vector.ofFn fun i =>
  let b := inverse (UInt8.ofNat i)
  b ^^^ rotl b 1 ^^^ rotl b 2 ^^^ rotl b 3 ^^^ rotl b 4 ^^^ 0x63

/-- The byte that substitution sends to every byte. -/
def inverseSubstitutions : Vector UInt8 256 := Vector.ofFn fun i =>
  let b := UInt8.ofNat i
  inverse (rotl b 1 ^^^ rotl b 3 ^^^ rotl b 6 ^^^ 0x05)

def substitute (b : UInt8) : UInt8 := substitutions.get ⟨b.toNat, b.toNat_lt⟩

def unsubstitute (b : UInt8) : UInt8 := inverseSubstitutions.get ⟨b.toNat, b.toNat_lt⟩

/-! ## Rows and columns -/

/-- Row `r` moves `r` columns to the left. -/
def shiftRows (a : Block) : Block :=
  ⟨⟨a.c0.b0, a.c1.b1, a.c2.b2, a.c3.b3⟩, ⟨a.c1.b0, a.c2.b1, a.c3.b2, a.c0.b3⟩,
    ⟨a.c2.b0, a.c3.b1, a.c0.b2, a.c1.b3⟩, ⟨a.c3.b0, a.c0.b1, a.c1.b2, a.c2.b3⟩⟩

/-- Row `r` moves `r` columns to the right. -/
def unshiftRows (a : Block) : Block :=
  ⟨⟨a.c0.b0, a.c3.b1, a.c2.b2, a.c1.b3⟩, ⟨a.c1.b0, a.c0.b1, a.c3.b2, a.c2.b3⟩,
    ⟨a.c2.b0, a.c1.b1, a.c0.b2, a.c3.b3⟩, ⟨a.c3.b0, a.c2.b1, a.c1.b2, a.c0.b3⟩⟩

/-- The product of a column with the circulant of 2, 3, 1, 1. -/
def mixColumn (a : Column) : Column :=
  let all := a.b0 ^^^ a.b1 ^^^ a.b2 ^^^ a.b3
  ⟨a.b0 ^^^ all ^^^ double (a.b0 ^^^ a.b1), a.b1 ^^^ all ^^^ double (a.b1 ^^^ a.b2),
    a.b2 ^^^ all ^^^ double (a.b2 ^^^ a.b3), a.b3 ^^^ all ^^^ double (a.b3 ^^^ a.b0)⟩

/-- The product of a column with the circulant of 14, 11, 13, 9, which is that of 5, 0, 4, 0 times
    that of 2, 3, 1, 1. -/
def unmixColumn (a : Column) : Column :=
  let even := double (double (a.b0 ^^^ a.b2))
  let odd := double (double (a.b1 ^^^ a.b3))
  mixColumn ⟨a.b0 ^^^ even, a.b1 ^^^ odd, a.b2 ^^^ even, a.b3 ^^^ odd⟩

/-! ## Round keys -/

def nextRoundKey (k : Block) (constant : UInt8) : Block :=
  let t : Column := ⟨substitute k.c3.b1 ^^^ constant, substitute k.c3.b2, substitute k.c3.b3,
    substitute k.c3.b0⟩
  let c0 := k.c0.xor t
  let c1 := k.c1.xor c0
  let c2 := k.c2.xor c1
  ⟨c0, c1, c2, k.c3.xor c2⟩

/-- The round keys of a key: the key itself and the ten that follow it. -/
def roundKeys (key : Block) : List Block :=
  let constants : List UInt8 := [1, 2, 4, 8, 16, 32, 64, 128, 0x1b, 0x36]
  (constants.foldl (fun (k, keys) c =>
    let next := nextRoundKey k c
    (next, next :: keys)) (key, [key])).2.reverse

/-! ## Rounds -/

/-- The rounds under the given keys, the last of them without mixing. -/
def encryptRounds : List Block → Block → Block
  | [], a => a
  | [k], a => (shiftRows (a.mapColumns (Column.map substitute))).xor k
  | k :: keys, a =>
    encryptRounds keys
      (((shiftRows (a.mapColumns (Column.map substitute))).mapColumns mixColumn).xor k)

/-- The rounds under the given keys undone, the last of them first. -/
def decryptRounds : List Block → Block → Block
  | [], a => a
  | [k], a => (unshiftRows (a.xor k)).mapColumns (Column.map unsubstitute)
  | k :: keys, a =>
    (unshiftRows (((decryptRounds keys a).xor k).mapColumns unmixColumn)).mapColumns
      (Column.map unsubstitute)

/-- Encryption of one block under ready-made round keys. -/
def encryptWith : List Block → Block → Block
  | [], a => a
  | k :: keys, a => encryptRounds keys (a.xor k)

/-- Decryption of one block under ready-made round keys. -/
def decryptWith : List Block → Block → Block
  | [], a => a
  | k :: keys, a => (decryptRounds keys a).xor k

def encryptBlock (key a : Block) : Block := encryptWith (roundKeys key) a

def decryptBlock (key a : Block) : Block := decryptWith (roundKeys key) a

end SealedContent.Aes
