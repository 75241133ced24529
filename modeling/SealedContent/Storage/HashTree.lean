import SealedContent.Storage.Basic

/-! # Hash trees

Levels of data, each checked block by block against the hashes in the level above it. The first level
is checked against a master hash, and the last one is the data.

* `HashLevel` — one level with its recorded verdicts (`HashLevel.validity`), and the check of all its
  blocks (`HashLevel.validate`).
* `HashTree.make` builds a tree and checks its first level. `HashTree.ofTable` is the layout of two
  levels whose hash table is a single block, `HashTree.ofLevels` the layout of several levels with
  padded blocks.
* `HashTree.validate` — the check of every block of every level.
-/

namespace SealedContent

/-! ## Levels -/

/-- A level of a hash tree: data, and hashes that check it. -/
structure HashLevel where
  cell : Nat
  check : BlockCheck
  data : Storage
  hashes : Storage

namespace HashLevel

def storage (level : HashLevel) : Storage :=
  .verified level.cell level.check level.data level.hashes

def ofStorage? : Storage → Option HashLevel
  | .verified cell check data hashes => some ⟨cell, check, data, hashes⟩
  | _ => none

def blockCount (level : HashLevel) : Nat :=
  (level.data.size + (level.check.blockSize - 1)) / level.check.blockSize

/-- A level without verdicts. Blocks hold at least one byte, and there is a hash for each of them. -/
def make (data hashes : Storage) (check : BlockCheck) : SessionM HashLevel := do
  if check.blockSize = 0 then throw (.format .zeroHashBlock)
  let count := (data.size + (check.blockSize - 1)) / check.blockSize
  if hashes.size < count * Sha256.size then
    throw (.format (.fewHashes check.level hashes.size count))
  return ⟨← SessionM.newVerdicts, check, data, hashes⟩

/-- A block and the verdict on it, which is recorded. -/
def checkBlock (level : HashLevel) (block : Nat) : SessionM (Bytes × Validity) :=
  checkedBlock level.cell level.check level.data.size level.data.read level.hashes.read block

def blockValidity (level : HashLevel) (session : Session) (block : Nat) : Validity :=
  (session.verdictsOf level.cell).verdict block

/-- The recorded verdicts on all blocks together. -/
def validity (level : HashLevel) (session : Session) : Validity :=
  .mergeAll ((List.range level.blockCount).map (level.blockValidity session))

/-- Checks every block, without regard to the policy of this level. -/
def validate (level : HashLevel) : SessionM Validity := do
  return .mergeAll (← (List.range level.blockCount).mapM fun block => do
    return (← level.checkBlock block).2)

end HashLevel

/-! ## Trees -/

/-- Where the bytes of a level lie in a section, and the size of its blocks. -/
structure HashPlacement where
  offset : Nat
  size : Nat
  blockSize : Nat
deriving DecidableEq, Repr

/-- A chain of levels, from the one below the master hash to the data. -/
structure HashTree where
  levels : List HashLevel
  nonempty : levels ≠ []

namespace HashTree

/-- The levels from a placement on. Each of them holds the hashes of the next. -/
def chain (content : Storage) (policy : Policy) (padded : Bool) :
    (number : Nat) → (hashes : Storage) → List HashPlacement → SessionM (List HashLevel)
  | _, _, [] => return []
  | number, hashes, placement :: rest => do
    let data ← content.window placement.offset placement.size
    let level ← HashLevel.make data hashes ⟨placement.blockSize, number, policy, padded⟩
    return level :: (← chain content policy padded (number + 1) level.storage rest)

/-- Checks a whole level, and treats a failure as a read of the first block that fails would. -/
def openLevel (level : HashLevel) : SessionM Unit := do
  let outcome ← level.validate
  if outcome = .invalid then
    let session ← get
    let blocks := List.range level.blockCount
    let block := (blocks.find? fun block => level.blockValidity session block = .invalid).getD 0
    level.check.enforce block .invalid

/-- The tree over a section with a master hash. Its first level is checked at once, unless nothing is
    to be checked. -/
def make (content : Storage) (master : Bytes) (placements : List HashPlacement) (padded : Bool)
    (policy : Policy) : SessionM HashTree := do
  match ← chain content policy padded 1 (.ofBytes master) placements with
  | [] => throw (.format .emptyHashTree)
  | first :: rest => do
    if policy ≠ .off then openLevel first
    return ⟨first :: rest, by simp⟩

/-- The layout of archives: a hash table that is one block under the master hash, and data whose
    short last block is hashed as it is. -/
def ofTable (content : Storage) (master : Bytes) (table data : Region) (blockSize : Nat)
    (policy : Policy) : SessionM HashTree :=
  make content master
    [⟨table.offset, table.size, max table.size 1⟩, ⟨data.offset, data.size, blockSize⟩] false policy

/-- The layout of images: several levels, whose short last blocks are hashed with zeros up to the
    block size. -/
def ofLevels (content : Storage) (master : Bytes) (placements : List HashPlacement)
    (policy : Policy) : SessionM HashTree :=
  make content master placements true policy

def dataLevel (tree : HashTree) : HashLevel := tree.levels.getLast tree.nonempty

def storage (tree : HashTree) : Storage := tree.dataLevel.storage

/-- The recorded verdicts of each level, the first one first. -/
def levelValidity (tree : HashTree) (session : Session) : List Validity :=
  tree.levels.map (·.validity session)

/-- Checks every block of every level, the first level first. -/
def validate (tree : HashTree) : SessionM Validity := do
  return .mergeAll (← tree.levels.mapM HashLevel.validate)

end HashTree

end SealedContent
