import SealedContent.Aes.Modes
import SealedContent.Keys.Ring

/-! # Key derivation

`KeyRing.derive` completes a ring: every rule whose inputs are known writes its output slot. The
rules run in one order:

* keyblob keys, keyblobs, and the master keks and package1 keys inside them,
* later master keks, master keys,
* device, save and BIS keys,
* the keys of every generation with a known master key,
* the header key and the SD card keys.

All rules but the decryption of keyblobs unwrap blocks, and `deriveWith` takes that function as an
argument. A keyblob is used even if its authentication code differs; `KeyRing.deriveWarnings` names
the generations where it does.
-/

namespace SealedContent

open Aes (Block XtsKey)

/-- The decryption of one block under a key. -/
abbrev Unwrap := Block → Block → Block

/-- The key that a kek seed, a source and perhaps a key seed lead to from a parent key. -/
def generateKek (unwrap : Unwrap) (key source kekSeed : Block) (keySeed : Option Block) : Block :=
  let kek := unwrap key kekSeed
  let sourceKek := unwrap kek source
  match keySeed with
  | some seed => unwrap sourceKek seed
  | none => sourceKek

/-- Both halves of a source unwrapped. -/
def unwrapXts (unwrap : Unwrap) (kek : Block) (source : XtsKey) : XtsKey :=
  ⟨unwrap kek source.data, unwrap kek source.tweak⟩

namespace KeyRing

/-- The ring after a rule ran for every index below a bound. -/
def forEach (count : Nat) (rule : KeyRing → Nat → KeyRing) (ring : KeyRing) : KeyRing :=
  (List.range count).foldl rule ring

/-- The ring with a 16-byte key stored if the rule's inputs were known. -/
def store (ring : KeyRing) (family : KeyFamily) (index : Nat) (key : Option Block) : KeyRing :=
  match key with
  | some key => ring.setBlock family index key
  | none => ring

/-- The ring with a 32-byte key stored if the rule's inputs were known. -/
def storeXts (ring : KeyRing) (family : KeyFamily) (index : Nat) (key : Option XtsKey) : KeyRing :=
  match key with
  | some key => ring.set ⟨family, index⟩ key.toBytes
  | none => ring

/-! ## Keyblobs -/

/-- A keyblob key from the secure boot key, the TSEC key and its source, and from it the key of the
    keyblob's authentication code. -/
def deriveKeyblobKey (unwrap : Unwrap) (ring : KeyRing) (i : Nat) : KeyRing :=
  let key := do
    let boot ← ring.single? .secureBootKey
    let tsec ← ring.single? .tsecKey
    let source ← ring.block? .keyblobKeySource i
    pure (unwrap boot (unwrap tsec source))
  let mac := do
    let key ← key
    let source ← ring.single? .keyblobMacKeySource
    pure (unwrap key source)
  (ring.store .keyblobKey i key).store .keyblobMacKey i mac

/-- The three inputs of a keyblob's decryption. -/
def keyblobInputs? (ring : KeyRing) (i : Nat) : Option (Block × Block × Bytes) := do
  let key ← ring.block? .keyblobKey i
  let macKey ← ring.block? .keyblobMacKey i
  let blob ← ring.known? ⟨.encryptedKeyblob, i⟩
  pure (key, macKey, blob)

/-- A keyblob from its key, its counter and its ciphertext. The authentication code is not
    consulted. -/
def decryptKeyblob (ring : KeyRing) (i : Nat) : KeyRing :=
  match ring.keyblobInputs? i with
  | some (key, _, blob) =>
    let counter := Block.ofBytes (blob.window 0x10 0x10)
    ring.set ⟨.keyblob, i⟩ (Aes.ctr key counter (blob.drop 0x20))
  | none => ring

/-- The authentication code of a keyblob that is about to be decrypted differs. -/
def keyblobMismatch (ring : KeyRing) (i : Nat) : Bool :=
  match ring.keyblobInputs? i with
  | some (_, macKey, blob) =>
    (Aes.cmac macKey (blob.drop 0x10)).toBytes != blob.take 0x10
  | none => false

/-- The master kek at the start of a keyblob and the package1 key at its end. -/
def openKeyblob (ring : KeyRing) (i : Nat) : KeyRing :=
  match ring.known? ⟨.keyblob, i⟩ with
  | some blob =>
    (ring.setBlock .masterKek i (Block.ofBytes blob)).setBlock .package1Key i
      (Block.ofBytes (blob.drop 0x80))
  | none => ring

/-! ## Master keys -/

/-- A master kek of the generations without keyblobs from its TSEC root key and source. -/
def deriveMasterKek (unwrap : Unwrap) (ring : KeyRing) (i : Nat) : KeyRing :=
  ring.store .masterKek (i + keyblobCount) do
    let root ← ring.block? .tsecRootKey i
    let source ← ring.block? .masterKekSource (i + keyblobCount)
    pure (unwrap root source)

/-- A master kek that is still unknown from the Mariko kek and source. -/
def deriveMarikoKek (unwrap : Unwrap) (ring : KeyRing) (i : Nat) : KeyRing :=
  if (ring.block? .masterKek i).isSome then ring
  else ring.store .masterKek i do
    let kek ← ring.single? .marikoKek
    let source ← ring.block? .marikoMasterKekSource i
    pure (unwrap kek source)

/-- A master key from its kek and the master key source. -/
def deriveMasterKey (unwrap : Unwrap) (ring : KeyRing) (i : Nat) : KeyRing :=
  ring.store .masterKey i do
    let source ← ring.single? .masterKeySource
    let kek ← ring.block? .masterKek i
    pure (unwrap kek source)

/-! ## Keys of one console -/

/-- The device key from the first keyblob key. -/
def deriveDeviceKey (unwrap : Unwrap) (ring : KeyRing) : KeyRing :=
  ring.store .deviceKey 0 do
    let source ← ring.single? .perConsoleKeySource
    let key ← ring.block? .keyblobKey 0
    pure (unwrap key source)

def deriveSaveKey (unwrap : Unwrap) (ring : KeyRing) : KeyRing :=
  ring.store .saveMacKey 0 do
    let device ← ring.single? .deviceKey
    let kekSeed ← ring.single? .aesKekGenerationSource
    let kekSource ← ring.single? .saveMacKekSource
    let source ← ring.single? .saveMacKeySource
    pure (unwrap (generateKek unwrap device kekSource kekSeed none) source)

/-- The source of a BIS key. The last one falls back to the one before it. -/
def bisSource? (ring : KeyRing) (i : Nat) : Option XtsKey :=
  if i = 3 then (ring.xtsKey? .bisKeySource 3).or (ring.xtsKey? .bisKeySource 2)
  else ring.xtsKey? .bisKeySource i

/-- A BIS key: the first under the retail key of the device, the others under the BIS kek. -/
def deriveBisKey (unwrap : Unwrap) (ring : KeyRing) (i : Nat) : KeyRing :=
  ring.storeXts .bisKey i do
    let device ← ring.single? .deviceKey
    let kekSeed ← ring.single? .aesKekGenerationSource
    let kekSource ← ring.single? .bisKekSource
    let keySeed ← ring.single? .aesKeyGenerationSource
    let retail ← ring.single? .retailSpecificAesKeySource
    let source ← ring.bisSource? i
    let kek := if i = 0 then unwrap device retail
      else generateKek unwrap device kekSource kekSeed (some keySeed)
    pure (unwrapXts unwrap kek source)

/-! ## Keys of every generation -/

def deriveKeyAreaKey (unwrap : Unwrap) (i : Nat) (ring : KeyRing) (kind : KeyAreaKind) : KeyRing :=
  ring.store (.keyAreaKey kind) i do
    let master ← ring.block? .masterKey i
    let kekSeed ← ring.single? .aesKekGenerationSource
    let keySeed ← ring.single? .aesKeyGenerationSource
    let source ← ring.single? (.keyAreaKeySource kind)
    pure (generateKek unwrap master source kekSeed (some keySeed))

/-- A key that the master key of a generation unwraps directly. -/
def deriveFromMaster (unwrap : Unwrap) (family source : KeyFamily) (ring : KeyRing) (i : Nat) :
    KeyRing :=
  ring.store family i do
    let master ← ring.block? .masterKey i
    let source ← ring.single? source
    pure (unwrap master source)

/-- The key area keys, the title kek and the package2 key of a generation. -/
def deriveGeneration (unwrap : Unwrap) (ring : KeyRing) (i : Nat) : KeyRing :=
  let areas := [KeyAreaKind.application, .ocean, .system].foldl (deriveKeyAreaKey unwrap i) ring
  let kek := deriveFromMaster unwrap .titleKek .titleKekSource areas i
  deriveFromMaster unwrap .package2Key .package2KeySource kek i

/-! ## Header and SD card keys -/

/-- The kek of a source under the first master key. -/
def firstKek? (unwrap : Unwrap) (ring : KeyRing) (source : KeyFamily) : Option Block := do
  let master ← ring.block? .masterKey 0
  let kekSource ← ring.single? source
  let kekSeed ← ring.single? .aesKekGenerationSource
  let keySeed ← ring.single? .aesKeyGenerationSource
  pure (generateKek unwrap master kekSource kekSeed (some keySeed))

def deriveHeaderKey (unwrap : Unwrap) (ring : KeyRing) : KeyRing :=
  ring.storeXts .headerKey 0 do
    let kek ← ring.firstKek? unwrap .headerKekSource
    let source ← ring.xtsKey? .headerKeySource 0
    pure (unwrapXts unwrap kek source)

/-- An SD card key; its source is first combined with the card's seed. -/
def deriveSdCardKey (unwrap : Unwrap) (ring : KeyRing) (use : SdCardUse) : KeyRing :=
  ring.storeXts (.sdCardKey use) 0 do
    let kek ← ring.firstKek? unwrap .sdCardKekSource
    let seed ← ring.single? .sdSeed
    let source ← ring.xtsKey? (.sdCardKeySource use) 0
    pure (unwrapXts unwrap kek ⟨source.data.xor seed, source.tweak.xor seed⟩)

/-! ## The pipeline -/

/-- Every rule in order, for any decryption of blocks. -/
def deriveWith (unwrap : Unwrap) (ring : KeyRing) : KeyRing :=
  let ring := ring.forEach keyblobCount (deriveKeyblobKey unwrap)
  let ring := ring.forEach keyblobCount decryptKeyblob
  let ring := ring.forEach keyblobCount openKeyblob
  let ring := ring.forEach (generationCount - keyblobCount) (deriveMasterKek unwrap)
  let ring := ring.forEach generationCount (deriveMarikoKek unwrap)
  let ring := ring.forEach generationCount (deriveMasterKey unwrap)
  let ring := deriveSaveKey unwrap (deriveDeviceKey unwrap ring)
  let ring := ring.forEach 4 (deriveBisKey unwrap)
  let ring := ring.forEach generationCount (deriveGeneration unwrap)
  let ring := deriveHeaderKey unwrap ring
  [SdCardUse.save, .content, .customStorage].foldl (deriveSdCardKey unwrap) ring

/-- The ring with every key that follows from those it holds. -/
def derive (ring : KeyRing) : KeyRing := ring.deriveWith Aes.decryptBlock

/-- The generations whose keyblobs are used although their authentication codes differ. -/
def deriveWarnings (ring : KeyRing) : List Warning :=
  let ring := ring.forEach keyblobCount (deriveKeyblobKey Aes.decryptBlock)
  ((List.range keyblobCount).filter ring.keyblobMismatch).map .keyblobMac

end KeyRing

end SealedContent
