import SealedContent.Aes.Cipher
import SealedContent.Error

/-! # Modes of operation

AES-128 over byte strings:

* `ecbEncrypt`, `ecbDecrypt` and `cbcEncrypt`, `cbcDecrypt` — whole blocks without padding.
* `ctr`, `ctrAt` — exclusive or with a keystream, from its start or from any byte of it. The counter
  is a 128-bit big-endian number that wraps.
* `xtsEncrypt`, `xtsDecrypt` — whole sectors, with the sector number big-endian in the tweak.
* `cmac` — the message authentication code.
-/

namespace SealedContent.Aes

def blockSize : Nat := 16

/-! ## ECB and CBC -/

/-- The blocks of a string of whole blocks. -/
def wholeBlocks (data : Bytes) : Except Error (List Block) :=
  if data.length % blockSize = 0 then .ok (Block.ofChunks data) else .error (.crypto .partialBlock)

/-- Each block encrypted on its own. -/
def ecbEncrypt (key : Block) (data : Bytes) : Except Error Bytes := do
  let keys := roundKeys key
  return Block.flatten ((← wholeBlocks data).map (encryptWith keys))

/-- Each block decrypted on its own. -/
def ecbDecrypt (key : Block) (data : Bytes) : Except Error Bytes := do
  let keys := roundKeys key
  return Block.flatten ((← wholeBlocks data).map (decryptWith keys))

/-- Every block is combined with the ciphertext before it, then encrypted. -/
def chainEncrypt (keys : List Block) : (previous : Block) → List Block → List Block
  | _, [] => []
  | previous, a :: rest =>
    let c := encryptWith keys (a.xor previous)
    c :: chainEncrypt keys c rest

/-- Every block is decrypted, then combined with the ciphertext before it. -/
def chainDecrypt (keys : List Block) : (previous : Block) → List Block → List Block
  | _, [] => []
  | previous, c :: rest => (decryptWith keys c).xor previous :: chainDecrypt keys c rest

/-- Cipher block chaining from an initial vector. -/
def cbcEncrypt (key iv : Block) (data : Bytes) : Except Error Bytes := do
  return Block.flatten (chainEncrypt (roundKeys key) iv (← wholeBlocks data))

/-- Cipher block chaining undone. -/
def cbcDecrypt (key iv : Block) (data : Bytes) : Except Error Bytes := do
  return Block.flatten (chainDecrypt (roundKeys key) iv (← wholeBlocks data))

/-! ## CTR -/

/-- The keystream of `count` blocks from a counter on. -/
def keystream (key : Block) (counter count : Nat) : Bytes :=
  let keys := roundKeys key
  (List.range count).flatMap fun i => (encryptWith keys (Block.ofNat (counter + i))).toBytes

/-- The keystream applied to the bytes at `offset` of a stream whose byte zero uses the counter
    `base`. -/
def ctrAt (key base : Block) (offset : Nat) (data : Bytes) : Bytes :=
  let skip := offset % blockSize
  let count := (skip + data.length + (blockSize - 1)) / blockSize
  data.xor ((keystream key (base.toNat + offset / blockSize) count).drop skip)

/-- The keystream from a counter on applied to a string. The transformation is its own inverse. -/
def ctr (key counter : Block) (data : Bytes) : Bytes := ctrAt key counter 0 data

/-- The counter of a section's byte at `offset`: its upper half from the section, its lower half the
    number of the block. -/
def sectionCounter (upper offset : Nat) : Block :=
  Block.ofBytes (BigEndian.encode 8 upper ++ BigEndian.encode 8 (offset / blockSize))

/-- The counter of a subsection: bytes 4 to 8 of the section's counter give way to the
    generation. -/
def generationCounter (upper generation : Nat) : Block :=
  Block.ofBytes ((BigEndian.encode 8 upper).take 4 ++ BigEndian.encode 4 generation ++ Bytes.zeros 8)

/-! ## Polynomials

XTS and CMAC read a block as a polynomial over bits of degree below 128, the one little-endian, the
other big-endian. -/

/-- The polynomial of degree 128 that products are reduced by. -/
def blockModulus : Nat := 0x100000000000000000000000000000087

/-- The product of a polynomial and `x`, reduced. -/
def timesX (n : Nat) : Nat :=
  if n.testBit 127 then (n <<< 1) ^^^ blockModulus else n <<< 1

/-! ## XTS -/

/-- The tweak of the next block. -/
def nextTweak (tweak : Block) : Block :=
  .ofBytes (LittleEndian.encode 16 (timesX (LittleEndian.decode tweak.toBytes)))

/-- Every block is combined with its tweak before and after `f`. -/
def tweaked (f : Block → Block) : (tweak : Block) → List Block → List Block
  | _, [] => []
  | tweak, a :: rest => (f (a.xor tweak)).xor tweak :: tweaked f (nextTweak tweak) rest

/-- One sector under a function on blocks and the encrypted number of the sector. -/
def xtsSector (f : Block → Block) (tweakKeys : List Block) (number : Nat) (data : Bytes) : Bytes :=
  Block.flatten (tweaked f (encryptWith tweakKeys (Block.ofNat number)) (Block.ofChunks data))

/-- Whole sectors, numbered from `first`. -/
def xtsSectors (f : Block → Block) (tweakKeys : List Block) (first size : Nat) (data : Bytes) :
    Except Error Bytes :=
  if size = 0 ∨ size % blockSize ≠ 0 ∨ data.length % size ≠ 0 then .error (.crypto .partialSector)
  else .ok ((data.chunks size).zipIdx.flatMap fun (sector, i) =>
    xtsSector f tweakKeys (first + i) sector)

/-- Sectors of `size` bytes encrypted, the first of them with number `first`. -/
def xtsEncrypt (key : XtsKey) (first size : Nat) (data : Bytes) : Except Error Bytes :=
  xtsSectors (encryptWith (roundKeys key.data)) (roundKeys key.tweak) first size data

/-- Sectors of `size` bytes decrypted, the first of them with number `first`. -/
def xtsDecrypt (key : XtsKey) (first size : Nat) (data : Bytes) : Except Error Bytes :=
  xtsSectors (decryptWith (roundKeys key.data)) (roundKeys key.tweak) first size data

/-! ## CMAC -/

/-- The next of the subkeys that are derived from the encryption of zero. -/
def doubleSubkey (k : Block) : Block := .ofNat (timesX k.toNat)

/-- The authentication code of a message: the last block of its chaining from zero, after that block
    was combined with a subkey, and completed by a one bit and zeros if it is short. -/
def cmac (key : Block) (message : Bytes) : Block :=
  let keys := roundKeys key
  let subkey := doubleSubkey (encryptWith keys .zero)
  let pieces := message.chunks blockSize
  let last := pieces.getLastD []
  let final :=
    if last.length = blockSize then (Block.ofBytes last).xor subkey
    else (Block.ofBytes (last ++ [0x80])).xor (doubleSubkey subkey)
  (pieces.dropLast.map Block.ofBytes ++ [final]).foldl
    (fun state a => encryptWith keys (state.xor a)) .zero

end SealedContent.Aes
