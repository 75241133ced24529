import SealedContent.Proofs.Aes.Positions
import SealedContent.Proofs.Storage.EntryFormat
import SealedContent.Proofs.Storage.Tiling

/-! # Tables of one bucket

`BucketTree.oneBucket` is the tree of a single bucket over the whole range, and `oneBucketTable` a table that
states it, given how entries are encoded: `Statable.gapless`, `Statable.written`.
-/

namespace SealedContent

namespace BucketTree

variable {E : Type} [BucketEntry E] {encode : E → Bytes} {entries : List E} {size : Nat}

/-- Entries are encoded in the size of an entry, and decoded again. -/
def Encodes (encode : E → Bytes) (entries : List E) : Prop :=
  ∀ entry ∈ entries, (encode entry).length = BucketEntry.size E ∧ BucketEntry.decode (encode entry) = entry

theorem encodes_relocations {entries : List Relocation} (small : ∀ entry ∈ entries,
    entry.offset < 256 ^ 8 ∧ entry.source < 256 ^ 8 ∧ entry.storage < 256 ^ 4) :
    Encodes Relocation.encode entries :=
  fun entry member => ⟨entry.length_encode, Relocation.decode_encode (small entry member)⟩

/-- The reserved bytes are zeros here. -/
theorem encodes_subsections {entries : List Subsection} (small : ∀ entry ∈ entries,
    entry.offset < 256 ^ 8 ∧ entry.generation < 256 ^ 4) : Encodes Subsection.encode entries :=
  fun entry member => ⟨entry.length_encodeWith (Bytes.length_zeros 4),
    Subsection.decode_encodeWith (small entry member) (Bytes.length_zeros 4)⟩

/-! ## Tables -/

/-- The tree of a single bucket. -/
def oneBucket (entries : List E) (size : Nat) : BucketTree E := ⟨[⟨0, size, entries⟩], size⟩

/-- A node of a table. -/
def nodeBytes (count last : Nat) (content : Bytes) : Bytes :=
  Bytes.zeros 4 ++ (LittleEndian.encode 4 count ++ (LittleEndian.encode 8 last ++ content))

/-- The root, which lists one bucket from zero on, and the node of the bucket. -/
def oneBucketTable (encode : E → Bytes) (entries : List E) (size : Nat) : Bytes :=
  nodeBytes 1 size (LittleEndian.encode 8 0 ++ Bytes.zeros 0x3FE8) ++
    nodeBytes entries.length size (entries.map encode).flatten

def oneBucketSize (E : Type) [BucketEntry E] (count : Nat) : Nat :=
  nodeSize + (nodeHeaderSize + count * BucketEntry.size E)

/-- Entries without gaps that fit such a table. -/
structure Statable (encode : E → Bytes) (entries : List E) (size : Nat) : Prop where
  tiles : Tiles BucketEntry.offset size 0 entries
  encodes : Encodes encode entries
  some : 0 < entries.length
  few : entries.length ≤ entriesPerNode E
  nonempty : 0 < size
  positive : size < 0x8000000000000000

theorem Statable.gapless (statable : Statable encode entries size) : (oneBucket entries size).Gapless :=
  ⟨rfl, statable.nonempty, statable.tiles, rfl⟩

omit [BucketEntry E] in
theorem entries_oneBucket (tree : List E) (size : Nat) : (oneBucket tree size).entries = tree := List.append_nil tree

theorem length_nodeBytes (count last : Nat) (content : Bytes) :
    (nodeBytes count last content).length = nodeHeaderSize + content.length := by
  simp only [nodeBytes, nodeHeaderSize, List.length_append, Bytes.length_zeros, LittleEndian.length_encode]
  omega

theorem length_root (size : Nat) :
    (nodeBytes 1 size (LittleEndian.encode 8 0 ++ Bytes.zeros 0x3FE8)).length = nodeSize := by
  simp [length_nodeBytes, nodeHeaderSize, nodeSize]

theorem nodeBytes_fields (count last : Nat) (content after : Bytes) :
    (nodeBytes count last content ++ after).fieldAt 4 4 = count % 256 ^ 4 ∧
      (nodeBytes count last content ++ after).fieldAt 8 8 = last % 256 ^ 8 := by
  simp [nodeBytes, Bytes.fieldAt_append_of_le, Bytes.fieldAt_encode]

theorem length_of_mem_encoded (encodes : Encodes encode entries) :
    ∀ piece ∈ entries.map encode, piece.length = BucketEntry.size E := by
  intro piece member
  obtain ⟨entry, there, rfl⟩ := List.mem_map.mp member
  exact (encodes entry there).1

theorem length_oneBucketTable (encodes : Encodes encode entries) (size : Nat) :
    (oneBucketTable encode entries size).length = oneBucketSize E entries.length := by
  rw [oneBucketTable, List.length_append, length_root, length_nodeBytes,
    length_flatten_pieces _ (length_of_mem_encoded encodes), List.length_map, oneBucketSize]

theorem Statable.bucket (statable : Statable encode entries size) :
    WrittenBucket (oneBucketTable encode entries size) 0 ⟨0, size, entries⟩ := by
  obtain ⟨-, encodes, -, few, -, positive⟩ := statable
  have small := entriesPerNode_le E
  have pieces := length_of_mem_encoded encodes
  obtain ⟨count, last⟩ := nodeBytes_fields entries.length size (entries.map encode).flatten []
  rw [List.append_nil] at count last
  have behind : ∀ offset width, (oneBucketTable encode entries size).fieldAt (nodeSize * (0 + 1) + offset) width =
      (nodeBytes entries.length size (entries.map encode).flatten).fieldAt offset width := by
    intro offset width
    rw [oneBucketTable, Bytes.fieldAt_append_of_le (by rw [length_root]; omega), length_root, Nat.zero_add,
      Nat.mul_one, Nat.add_sub_cancel_left]
  constructor
  case first =>
    simp [oneBucketTable, nodeBytes, nodeHeaderSize, Bytes.fieldAt_append_of_le, Bytes.fieldAt_encode]
  case count => rw [behind, count, Nat.mod_eq_of_lt (by omega)]
  case last => rw [behind, last, Nat.mod_eq_of_lt (by omega)]
  case fitting => exact few
  case room =>
    rw [length_oneBucketTable encodes, oneBucketSize]
    show nodeSize * (0 + 1) + nodeHeaderSize + entries.length * BucketEntry.size E ≤ _
    omega
  case entry =>
    intro j inside
    have there : j < (entries.map encode).length := by rw [List.length_map]; exact inside
    have place : nodeSize * (0 + 1) + nodeHeaderSize + j * BucketEntry.size E =
        (nodeBytes 1 size (LittleEndian.encode 8 0 ++ Bytes.zeros 0x3FE8) ++
          (Bytes.zeros 4 ++ (LittleEndian.encode 4 entries.length ++ LittleEndian.encode 8 size))).length +
            j * BucketEntry.size E := by
      simp [length_root, nodeHeaderSize]
    have shape : oneBucketTable encode entries size =
        (nodeBytes 1 size (LittleEndian.encode 8 0 ++ Bytes.zeros 0x3FE8) ++
          (Bytes.zeros 4 ++ (LittleEndian.encode 4 entries.length ++ LittleEndian.encode 8 size))) ++
            (entries.map encode).flatten := by
      simp [oneBucketTable, nodeBytes]
    rw [place, shape, Bytes.window_append_right, Bytes.window_flatten pieces j there, List.getElem_map]
    exact (encodes _ (List.getElem_mem inside)).2

/-- The table states the tree. -/
theorem Statable.written (statable : Statable encode entries size) :
    (oneBucket entries size).WrittenIn (oneBucketTable encode entries size) where
  room := by
    rw [length_oneBucketTable statable.encodes]
    simp only [oneBucketSize, oneBucket, List.length_singleton, nodeSize, nodeHeaderSize]
    omega
  listed := (nodeBytes_fields 1 size _ _).1
  size := ((nodeBytes_fields 1 size _ _).2).trans (Nat.mod_eq_of_lt (by have := statable.positive; omega))
  positive := statable.positive
  least := by
    have one : (oneBucket entries size).buckets.length = 1 := rfl
    have some := statable.some
    have few := statable.few
    rw [entries_oneBucket, one]
    exact (Nat.div_eq_of_lt_le (by omega) (by omega)).symm
  fitting := show 1 ≤ bucketsPerRoot by decide
  buckets := by
    intro index inside
    have zero : index = 0 := Nat.lt_one_iff.mp inside
    subst zero
    exact statable.bucket

end BucketTree

end SealedContent
