import SealedContent.Bytes.Fields

/-! # Bucket trees

Sorted tables that give every offset of a range the entry that covers it:

* `Relocation`, `Subsection` — the two kinds of entries, with their encodings (`BucketEntry`).
* `BucketTree` — buckets of entries over disjoint, increasing ranges.
* `BucketTree.decode` reads a tree of one root node and one node a bucket, `BucketTree.ofEntries`
  makes a tree of one bucket. Both check the layout.
* `BucketTree.find?` — the entry that covers an offset, and where its range ends.
-/

namespace SealedContent

/-! ## Entries -/

/-- From `offset` on, bytes come from `source` on in the storage with number `storage`. -/
structure Relocation where
  offset : Nat
  source : Nat
  storage : Nat
deriving DecidableEq, Repr

/-- From `offset` on, bytes are encrypted under a counter of this generation. -/
structure Subsection where
  offset : Nat
  generation : Nat
deriving DecidableEq, Repr

/-- Entries of a fixed encoded size, keyed by the offset where their range starts. -/
class BucketEntry (E : Type) where
  /-- The size of an encoded entry. -/
  size : Nat
  /-- The offset where the entry's range starts. -/
  offset : E → Nat
  /-- The entry encoded in as many bytes as the size says. -/
  decode : Bytes → E

instance : BucketEntry Relocation where
  size := 0x14
  offset := Relocation.offset
  decode bytes :=
    { offset := LittleEndian.decode (bytes.window 0 8)
      source := LittleEndian.decode (bytes.window 8 8)
      storage := LittleEndian.decode (bytes.window 0x10 4) }

instance : BucketEntry Subsection where
  size := 0x10
  offset := Subsection.offset
  decode bytes :=
    { offset := LittleEndian.decode (bytes.window 0 8)
      generation := LittleEndian.decode (bytes.window 0xC 4) }

/-! ## Trees -/

/-- Entries that cover the range from `first` to before `last`. -/
structure Bucket (E : Type) where
  first : Nat
  last : Nat
  entries : List E
deriving DecidableEq, Repr

/-- Buckets over the range from zero to before `size`. -/
structure BucketTree (E : Type) where
  buckets : List (Bucket E)
  size : Nat
deriving DecidableEq, Repr

namespace BucketTree

variable {E : Type} [BucketEntry E]

def entries (tree : BucketTree E) : List E := tree.buckets.flatMap Bucket.entries

/-! ## Layout -/

/-- The entries of a bucket start inside it, each after the one before. Gives the last offset. -/
def checkEntries (index : Nat) (bucket : Bucket E) :
    (previous : Option Nat) → List E → Except Error (Option Nat)
  | previous, [] => .ok previous
  | previous, e :: rest =>
    let offset := BucketEntry.offset e
    if offset < bucket.first ∨ bucket.last ≤ offset then
      .error (.format (.entryOutsideBucket offset index))
    else if previous.any (offset ≤ ·) then .error (.format .entriesNotIncreasing)
    else checkEntries index bucket (some offset) rest

/-- Every bucket has a range that ends before the next bucket starts, or before the tree ends. -/
def checkBuckets (size : Nat) :
    (index : Nat) → (previous : Option Nat) → List (Bucket E) → Except Error Unit
  | _, _, [] => .ok ()
  | index, previous, bucket :: rest =>
    let limit := (rest.head?.map Bucket.first).getD size
    if bucket.last ≤ bucket.first ∨ limit < bucket.last then
      .error (.format (.bucketRange index bucket.first bucket.last limit))
    else
      match checkEntries index bucket previous bucket.entries with
      | .ok previous => checkBuckets size (index + 1) previous rest
      | .error e => .error e

/-- The tree, if its layout holds. -/
def checked (tree : BucketTree E) : Except Error (BucketTree E) := do
  checkBuckets tree.size 0 none tree.buckets
  return tree

/-- A tree of one bucket that covers everything from the first entry on. -/
def ofEntries (entries : List E) (size : Nat) : Except Error (BucketTree E) :=
  let buckets := match entries with
    | [] => []
    | e :: _ => [⟨BucketEntry.offset e, size, entries⟩]
  checked ⟨buckets, size⟩

/-! ## Encoded trees -/

def nodeSize : Nat := 0x4000

def nodeHeaderSize : Nat := 0x10

/-- The number of entries that fit a node. -/
def entriesPerNode (E : Type) [BucketEntry E] : Nat :=
  (nodeSize - nodeHeaderSize) / BucketEntry.size E

/-- The number of buckets that a root node lists. -/
def bucketsPerRoot : Nat := (nodeSize - nodeHeaderSize) / 8

/-- The count and the end of the node at an offset. Neither may be negative. -/
def nodeHeader (table : Bytes) (offset : Nat) : Except Error (Nat × Nat) := do
  let count ← table.numberAt (offset + 4) 4
  let last ← table.numberAt (offset + 8) 8
  if 0x80000000 ≤ count ∨ 0x8000000000000000 ≤ last then throw (.format .negativeNodeField)
  return (count, last)

def decodeBucket (table : Bytes) (index : Nat) : Except Error (Bucket E) := do
  let first ← table.numberAt (nodeHeaderSize + index * 8) 8
  let node := nodeSize * (index + 1)
  let (count, last) ← nodeHeader table node
  if entriesPerNode E < count then throw (.format .bucketOverfull)
  let size := BucketEntry.size E
  let entries ← (List.range count).mapM fun j => do
    return BucketEntry.decode (← table.bytesAt (node + nodeHeaderSize + j * size) size)
  return ⟨first, last, entries⟩

/-- The tree of `count` entries that a table encodes. -/
def decode (table : Bytes) (count : Nat) : Except Error (BucketTree E) := do
  let perNode := entriesPerNode E
  let expected := (count + (perNode - 1)) / perNode
  if bucketsPerRoot < expected then throw (.layout (.deepBucketTree count))
  if count = 0 then return ⟨[], 0⟩
  let (listed, size) ← nodeHeader table 0
  if listed ≠ expected then throw (.format (.bucketCount listed expected))
  let buckets ← (List.range expected).mapM (decodeBucket table)
  let held := (buckets.flatMap (·.entries)).length
  if held ≠ count then throw (.format (.entryCount held count))
  checked ⟨buckets, size⟩

/-! ## Lookup -/

/-- Halves a range of indices until one is left: where a condition stops that holds of the leading ones. -/
def halve (holds : Nat → Bool) (base size : Nat) : Nat :=
  if _hsize : size ≤ 1 then if holds base then base + 1 else base
  else
    let half := size / 2
    halve holds (if holds (base + half) then base + half else base) (size - half)
termination_by size
decreasing_by omega

/-- How many items satisfy a condition, if those that do stand in front of all others. -/
def partitionPoint {α : Type} (p : α → Bool) (items : List α) : Nat :=
  halve (fun i => items[i]?.any p) 0 items.length

/-- The last of the leading items of a list that satisfy a condition, and the item behind it. -/
def lastBefore? {α : Type} (p : α → Bool) (items : List α) : Option (α × Option α) :=
  match partitionPoint p items with
  | 0 => none
  | count + 1 => items[count]?.map fun last => (last, items[count + 1]?)

/-- The entry whose range holds an offset, and the end of that range: the next entry of its bucket or
    the end of the bucket. -/
def find? (tree : BucketTree E) (offset : Nat) : Option (E × Nat) := do
  if tree.size ≤ offset then none
  let (bucket, _) ← lastBefore? (fun b => b.first ≤ offset) tree.buckets
  let (entry, next) ← lastBefore? (fun e => BucketEntry.offset e ≤ offset) bucket.entries
  let last := (next.map BucketEntry.offset).getD bucket.last
  if last ≤ offset then none
  return (entry, last)

end BucketTree

end SealedContent
