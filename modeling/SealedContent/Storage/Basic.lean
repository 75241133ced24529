import SealedContent.Aes.Modes
import SealedContent.Sha256
import SealedContent.Storage.BucketTree
import SealedContent.Storage.Session

/-! # Storages

A storage is a readable range of bytes, built from others:

* `Storage` — the eight kinds of nodes, `Storage.size` and `Storage.kind`.
* `ranged`, `readCached`, `readDecrypted`, `readRelocated`, `readVerified` — how each kind serves a
  range, given how to fetch from the nodes below.
* `Storage.read` — the bytes of a range. A range outside the storage is an error, an empty one inside
  it is served without touching anything.
* `Storage.window`, `Storage.cached` — a window within bounds, a cache with a table of its own.

Nodes may be shared: two nodes with the same table or the same verdicts are one node.
-/

namespace SealedContent

open Aes (Block XtsKey)

/-! ## Nodes -/

/-- How a decrypting node treats its ciphertext. -/
inductive StorageCipher where
  /-- AES-CTR, with the counter of byte zero. -/
  | ctr (key counter : Block)
  /-- AES-CTR whose counters take their generation from a table. Byte zero lies at `start` in the
      container. -/
  | generations (key : Block) (upper start : Nat) (table : BucketTree Subsection)
  /-- AES-XTS in whole sectors, numbered from `first`. -/
  | xts (key : XtsKey) (sectorSize first : Nat)
  /-- AES-ECB in whole blocks. -/
  | ecb (key : Block)

def StorageCipher.name : StorageCipher → String
  | ctr .. => "AES-CTR"
  | generations .. => "AES-CTR-Ex"
  | xts .. => "AES-XTS"
  | ecb .. => "AES-ECB"

/-- A range of bytes within a storage. -/
structure Region where
  offset : Nat
  size : Nat
deriving DecidableEq, Repr, Inhabited

/-- How the blocks of a verified node are checked. -/
structure BlockCheck where
  blockSize : Nat
  /-- The number of the level in its hash tree, for errors and warnings. -/
  level : Nat
  policy : Policy
  /-- A short last block is hashed with zeros up to the block size. -/
  padded : Bool
deriving DecidableEq, Repr

/-- A readable range of bytes. -/
inductive Storage where
  /-- Bytes in memory. -/
  | memory (bytes : Array UInt8)
  /-- A source that is read from any position. -/
  | stream (source : Array UInt8)
  /-- A window onto another storage. -/
  | slice (parent : Storage) (offset length : Nat)
  /-- Recently used blocks of another storage, in the table with the given number. -/
  | cache (table : Nat) (inner : Storage) (blockSize capacity : Nat)
  /-- Another storage decrypted on read. -/
  | decrypt (inner : Storage) (cipher : StorageCipher)
  /-- Several storages end to end. -/
  | concat (segments : List Storage)
  /-- The ranges of a table, each from one of two storages. -/
  | indirect (base patch : Storage) (table : BucketTree Relocation)
  /-- Data checked against its hashes, with the verdicts with the given number. -/
  | verified (cell : Nat) (check : BlockCheck) (data hashes : Storage)

instance : Inhabited Storage := ⟨.memory #[]⟩

/-- The kinds of storages. -/
inductive StorageKind where
  | memory | stream | slice | cache | decrypt | concat | indirect | verified
deriving DecidableEq, Repr

namespace Storage

/-- A storage of the given bytes. -/
def ofBytes (bytes : Bytes) : Storage := .memory bytes.toArray

def kind : Storage → StorageKind
  | memory _ => .memory
  | stream _ => .stream
  | slice .. => .slice
  | cache .. => .cache
  | decrypt .. => .decrypt
  | concat _ => .concat
  | indirect .. => .indirect
  | verified .. => .verified

mutual

def size : Storage → Nat
  | memory bytes => bytes.size
  | stream source => source.size
  | slice _ _ length => length
  | cache _ inner _ _ => inner.size
  | decrypt inner _ => inner.size
  | concat segments => sizes segments
  | indirect _ _ table => table.size
  | verified _ _ data _ => data.size

/-- The number of bytes of several storages. -/
def sizes : List Storage → Nat
  | [] => 0
  | segment :: rest => segment.size + sizes rest

end

mutual

/-- The kinds of nodes from the outermost down, through the data of verified nodes, the patch of
    indirect ones and the first of several segments. -/
def layers : Storage → List StorageKind
  | memory _ => [.memory]
  | stream _ => [.stream]
  | slice parent _ _ => .slice :: parent.layers
  | cache _ inner _ _ => .cache :: inner.layers
  | decrypt inner _ => .decrypt :: inner.layers
  | concat segments => .concat :: layersOfFirst segments
  | indirect _ patch _ => .indirect :: patch.layers
  | verified _ _ data _ => .verified :: data.layers

/-- The kinds of nodes of the first of several storages. -/
def layersOfFirst : List Storage → List StorageKind
  | [] => []
  | segment :: _ => segment.layers

end

end Storage

/-! ## Serving a range

Ranges, ciphers and relocation need no session: their rules are stated in any monad that can fail. -/

/-- How bytes are fetched from a node below: by offset and length. -/
abbrev Fetch (m : Type → Type) := (offset length : Nat) → m Bytes

section

variable {m : Type → Type} [Monad m] [MonadExceptOf Error m]

/-- Serves a range of a storage of `size` bytes: an error outside it, nothing if it is empty, and
    `body` otherwise. -/
def ranged (size offset length : Nat) (body : m Bytes) : m Bytes :=
  if size < offset + length then throw (.outOfRange offset length size)
  else if length = 0 then pure []
  else body

/-- The numbers of the blocks that a range touches. -/
def touchedBlocks (blockSize offset length : Nat) : List Nat :=
  let first := offset / blockSize
  List.range' first ((offset + length - 1) / blockSize + 1 - first)

/-- The length of a block of a storage of `size` bytes; the last block may be short. -/
def blockLength (size blockSize block : Nat) : Nat := min blockSize (size - block * blockSize)

/-- A range cut out of the blocks that it touches. -/
def cutRange (blockSize offset length : Nat) (blocks : List Bytes) : Bytes :=
  Bytes.window blocks.flatten (offset % blockSize) length

/-! ### Decryption -/

/-- Decrypts the bytes at `position`, piece by piece with the generation of each subsection. -/
def decryptGenerations (key : Block) (upper start : Nat) (table : BucketTree Subsection)
    (position : Nat) (data : Bytes) : Except Error Bytes :=
  if _hdata : data = [] then .ok []
  else match table.find? position with
    | none => .error (.format (.notInSubsection position))
    | some (entry, last) =>
      if _hlast : last ≤ position then .error (.format (.subsectionEnd last position))
      -- the counter of a piece is that of its first byte, and counts on from there in 128 bits
      else if UInt64.size ≤ start + position then .error .overflow
      else
        let count := last - position
        let piece := Aes.ctrAt key (Aes.generationCounter upper entry.generation)
          (start + position) (data.take count)
        match decryptGenerations key upper start table last (data.drop count) with
        | .ok rest => .ok (piece ++ rest)
        | .error e => .error e
termination_by data.length
decreasing_by
  have := List.length_pos_iff.mpr _hdata
  simp only [List.length_drop]; omega

/-- A range in whole units: the read is widened to them, decrypted from its first unit on and cut
    again. -/
def readUnits (name : String) (unit size : Nat) (inner : Fetch m)
    (decrypt : (start : Nat) → Bytes → Except Error Bytes) (offset length : Nat) : m Bytes :=
  let start := offset / unit * unit
  let last := (offset + length + (unit - 1)) / unit * unit
  if UInt64.size ≤ last then throw .overflow
  else if size < last then throw (.layout (.partialUnit name size unit))
  else do
    let plain ← MonadExcept.ofExcept (decrypt start (← inner start (last - start)))
    return Bytes.window plain (offset - start) length

/-- Decrypts whole sectors from the one that begins at `position`. They are counted from `first`. -/
def decryptSectors (key : XtsKey) (sectorSize first position : Nat) (data : Bytes) : Except Error Bytes :=
  let sector := first + position / sectorSize
  if UInt64.size ≤ sector then .error .overflow
  else Aes.xtsDecrypt key sector sectorSize data

/-- A range through a cipher over a storage of `size` bytes. -/
def readDecrypted (cipher : StorageCipher) (size : Nat) (inner : Fetch m) (offset length : Nat) :
    m Bytes := do
  match cipher with
  | .ctr key counter => return Aes.ctrAt key counter offset (← inner offset length)
  | .generations key upper start table =>
    MonadExcept.ofExcept (decryptGenerations key upper start table offset (← inner offset length))
  | .xts key sectorSize first =>
    readUnits cipher.name sectorSize size inner (decryptSectors key sectorSize first) offset length
  | .ecb key =>
    readUnits cipher.name Aes.blockSize size inner (fun _ => Aes.ecbDecrypt key) offset length

/-! ### Relocation -/

/-- Storage zero is the base of a patch and storage one the patch; no other is known. -/
def Relocation.choose? {α : Type} (entry : Relocation) (base patch : α) : Option α :=
  match entry.storage with
  | 0 => some base
  | 1 => some patch
  | _ => none

/-- A range through a relocation table, entry by entry. -/
def readRelocated (table : BucketTree Relocation) (base patch : Fetch m) (offset length : Nat) :
    m Bytes :=
  if _hlength : length = 0 then pure []
  else match table.find? offset with
    | none => throw (.format (.notRelocated offset))
    | some (entry, last) => match entry.choose? base patch with
      | none => throw (.format (.relocationSource entry.storage))
      | some source =>
        if _hlast : last ≤ offset then throw (.format (.relocationEnd last offset))
        else
          let count := min (last - offset) length
          let position := entry.source + (offset - entry.offset)
          if UInt64.size ≤ position then throw (.format .relocationOverflow)
          else do
            let bytes ← source position count
            let rest ← readRelocated table base patch (offset + count) (length - count)
            return bytes ++ rest
termination_by length
decreasing_by omega

end

/-! ### Caches -/

/-- A block from the table, or from below into the table. -/
def cachedBlock (table blockSize capacity size : Nat) (inner : Fetch SessionM) (block : Nat) :
    SessionM Bytes := do
  match ((← get).table table).find? block with
  | some bytes =>
    modify (·.modifyTable table (·.promote block))
    return bytes
  | none =>
    let bytes ← inner (block * blockSize) (blockLength size blockSize block)
    modify (·.modifyTable table (·.insert capacity block bytes))
    return bytes

/-- A range through a cache, block by block. -/
def readCached (table blockSize capacity size : Nat) (inner : Fetch SessionM) (offset length : Nat) :
    SessionM Bytes := do
  let blocks ← (touchedBlocks blockSize offset length).mapM
    (cachedBlock table blockSize capacity size inner)
  return cutRange blockSize offset length blocks

/-! ### Verification -/

/-- The verdict on a block, from its bytes and its hash. Zeros under a hash of zeros hold. -/
def BlockCheck.verdict (check : BlockCheck) (bytes hash : Bytes) : Validity :=
  if hash.isZero && bytes.isZero then .valid
  else
    let hashed := if check.padded then bytes.zeroExtend check.blockSize else bytes
    .ofBool (Sha256.digest hashed == hash)

/-- A block of verified data and the verdict on it. The hash is fetched only for blocks without a
    verdict. -/
def checkedBlock (cell : Nat) (check : BlockCheck) (size : Nat) (data hashes : Fetch SessionM)
    (block : Nat) : SessionM (Bytes × Validity) := do
  let bytes ← data (block * check.blockSize) (blockLength size check.blockSize block)
  let known := ((← get).verdictsOf cell).verdict block
  if known ≠ .unchecked then return (bytes, known)
  let hash ← hashes (block * Sha256.size) Sha256.size
  modify (·.record cell block (check.verdict bytes hash))
  return (bytes, ((← get).verdictsOf cell).verdict block)

/-- What the policy makes of a verdict. -/
def BlockCheck.enforce (check : BlockCheck) (block : Nat) (verdict : Validity) : SessionM Unit :=
  if verdict = .invalid then
    match check.policy with
    | .fail => throw (.integrity check.level block)
    | .warn => SessionM.warn (.hashMismatch check.level block)
    | .off | .ignore => pure ()
  else pure ()

/-- A range of verified data, block by block. Without a policy nothing is checked. -/
def readVerified (cell : Nat) (check : BlockCheck) (size : Nat) (data hashes : Fetch SessionM)
    (offset length : Nat) : SessionM Bytes := do
  if check.policy = .off then data offset length
  else
    let blocks ← (touchedBlocks check.blockSize offset length).mapM fun block => do
      let (bytes, verdict) ← checkedBlock cell check size data hashes block
      check.enforce block verdict
      return bytes
    return cutRange check.blockSize offset length blocks

/-! ## Reads -/

namespace Storage

mutual

def read : Storage → (offset length : Nat) → SessionM Bytes
  | memory bytes, offset, length =>
    ranged bytes.size offset length (pure (bytes.extract offset (offset + length)).toList)
  | stream source, offset, length =>
    ranged source.size offset length (pure (source.extract offset (offset + length)).toList)
  | slice parent start size, offset, length =>
    ranged size offset length (parent.read (start + offset) length)
  | cache table inner blockSize capacity, offset, length =>
    ranged inner.size offset length
      (readCached table blockSize capacity inner.size (fun o n => inner.read o n) offset length)
  | decrypt inner cipher, offset, length =>
    ranged inner.size offset length
      (readDecrypted cipher inner.size (fun o n => inner.read o n) offset length)
  | concat segments, offset, length =>
    ranged (sizes segments) offset length (readSegments segments offset length)
  | indirect base patch table, offset, length =>
    ranged table.size offset length
      (readRelocated table (fun o n => base.read o n) (fun o n => patch.read o n) offset length)
  | verified cell check data hashes, offset, length =>
    ranged data.size offset length
      (readVerified cell check data.size (fun o n => data.read o n) (fun o n => hashes.read o n)
        offset length)

/-- The bytes of a range of several storages end to end, each asked for its part in order. -/
def readSegments : List Storage → (offset length : Nat) → SessionM Bytes
  | [], _, _ => pure []
  | segment :: rest, offset, length =>
    if length = 0 then pure []
    else if segment.size ≤ offset then readSegments rest (offset - segment.size) length
    else do
      let count := min (segment.size - offset) length
      let bytes ← segment.read offset count
      let others ← readSegments rest 0 (length - count)
      return bytes ++ others

end

def readAll (storage : Storage) : SessionM Bytes := storage.read 0 storage.size

/-! ## Construction -/

/-- A window onto a storage. A window onto a slice looks at the slice's parent directly. -/
def window (parent : Storage) (offset length : Nat) : Except Error Storage :=
  if parent.size < offset + length then .error (.outOfRange offset length parent.size)
  else match parent with
    | slice grandparent start _ => .ok (slice grandparent (start + offset) length)
    | _ => .ok (slice parent offset length)

/-- The window that starts `offset` bytes behind `start`. -/
def windowBehind (parent : Storage) (start offset length : Nat) : Except Error Storage :=
  if UInt64.size ≤ start + offset then .error .overflow else parent.window (start + offset) length

def readRegion (storage : Storage) (region : Region) : SessionM Bytes :=
  storage.read region.offset region.size

def regionWindow (parent : Storage) (region : Region) : Except Error Storage :=
  parent.window region.offset region.size

/-- A cache with an empty table in front of a storage. Blocks hold at least one byte and the table at
    least one block. -/
def cached (inner : Storage) (blockSize capacity : Nat) : SessionM Storage := do
  return cache (← SessionM.newTable) inner (max blockSize 1) (max capacity 1)

end Storage

end SealedContent
