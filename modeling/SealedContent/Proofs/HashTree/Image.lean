import Mathlib.Logic.Relation
import SealedContent.Storage.HashTree

/-! # What a hash tree checks

A `HashImage` is the data that a tree is opened over: the bytes of a section, the master hash and
where the levels lie. Everything here is said of these bytes alone:

* `Matches` — a block agrees with its entry in the level above.
* `HoldsEntry` — a block holds a byte of the entry of a block of the next level; an entry may lie in
  two or more blocks. `OnPath` follows it upward, any number of times.
* `Trusted` — all blocks on the path of a block match. `Fault` is the place where a path breaks: a
  block that does not match while all blocks above it do.
-/

namespace SealedContent

/-- The bytes that are hashed for a block. -/
def hashedBytes (padded : Bool) (blockSize : Nat) (bytes : Bytes) : Bytes :=
  if padded then bytes.zeroExtend blockSize else bytes

/-- A block passes with the digest that its hash says, and with zeros under zeros. -/
theorem BlockCheck.verdict_eq (check : BlockCheck) (bytes hash : Bytes) :
    check.verdict bytes hash = if (hash.isZero = true ∧ bytes.isZero = true) ∨
      Sha256.digest (hashedBytes check.padded check.blockSize bytes) = hash then .valid else .invalid := by
  simp only [verdict, Validity.ofBool]
  by_cases zeros : hash.isZero = true ∧ bytes.isZero = true
  · simp [zeros]
  · have checked : ¬ (hash.isZero && bytes.isZero) = true := by simpa using zeros
    rw [if_neg checked]
    simp [zeros, hashedBytes]

/-- The number of a level in its tree, the first one being one, and of a block in the level. -/
structure HashBlock where
  level : Nat
  index : Nat
deriving DecidableEq, Repr

/-- The data of a hash tree. -/
structure HashImage where
  content : Bytes
  master : Bytes
  placements : List HashPlacement
  padded : Bool

namespace HashImage

variable (image : HashImage)

/-- The bytes of a level. Above the first level is the master hash. -/
def level : Nat → Bytes
  | 0 => image.master
  | number + 1 => match image.placements[number]? with
    | some placement => image.content.window placement.offset placement.size
    | none => []

/-- The size of the blocks of a level. The master hash has no blocks. -/
def blockSize : Nat → Nat
  | 0 => 0
  | number + 1 => match image.placements[number]? with
    | some placement => placement.blockSize
    | none => 0

/-- The bytes of a block. -/
def bytes (block : HashBlock) : Bytes :=
  (image.level block.level).window (block.index * image.blockSize block.level)
    (blockLength (image.level block.level).length (image.blockSize block.level) block.index)

/-- The bytes of a block as they are hashed. -/
def hashed (block : HashBlock) : Bytes :=
  hashedBytes image.padded (image.blockSize block.level) (image.bytes block)

/-- The entry of a block in the level above. -/
def entry (block : HashBlock) : Bytes :=
  (image.level (block.level - 1)).window (block.index * Sha256.size) Sha256.size

/-- A block has the digest that its entry says, or both are zeros. -/
def Matches (block : HashBlock) : Prop :=
  ((image.entry block).isZero = true ∧ (image.bytes block).isZero = true) ∨
    Sha256.digest (image.hashed block) = image.entry block

instance (block : HashBlock) : Decidable (image.Matches block) := by
  unfold Matches; infer_instance

/-- The verdict on a block. -/
def verdict (block : HashBlock) : Validity := if image.Matches block then .valid else .invalid

/-- The blocks that there are. -/
def HasBlock (block : HashBlock) : Prop :=
  0 < block.level ∧ block.level ≤ image.placements.length ∧
    block.index * image.blockSize block.level < (image.level block.level).length

/-- A range of a level has a byte in a block. -/
def Touches (level offset length : Nat) (block : HashBlock) : Prop :=
  block.level = level ∧ block.index * image.blockSize level < offset + length ∧
    offset < (block.index + 1) * image.blockSize level

/-- A block holds a byte of the entry of another block, one level below. -/
def HoldsEntry (lower upper : HashBlock) : Prop :=
  image.Touches (lower.level - 1) (lower.index * Sha256.size) Sha256.size upper

/-- From a block up to one that its check depends on. -/
def OnPath : HashBlock → HashBlock → Prop := Relation.ReflTransGen image.HoldsEntry

/-- Strictly up from a block to one that its check depends on. -/
def Above : HashBlock → HashBlock → Prop := Relation.TransGen image.HoldsEntry

/-- A block whose whole path matches. -/
def Trusted (block : HashBlock) : Prop := ∀ upper, image.OnPath block upper → image.Matches upper

/-- Where the path of a block breaks, seen from the master hash. -/
def Fault (block fault : HashBlock) : Prop :=
  image.OnPath block fault ∧ ¬ image.Matches fault ∧
    ∀ upper, image.Above fault upper → image.Matches upper

variable {image}

theorem trusted_iff {block : HashBlock} :
    image.Trusted block ↔
      image.Matches block ∧ ∀ upper, image.HoldsEntry block upper → image.Trusted upper := by
  constructor
  · intro trusted
    refine ⟨trusted block .refl, fun upper holds other path => ?_⟩
    exact trusted other (.head holds path)
  · rintro ⟨matching, above⟩ other path
    cases path.cases_head with
    | inl same => exact same ▸ matching
    | inr up =>
      obtain ⟨upper, holds, rest⟩ := up
      exact above upper holds other rest

/-- A block that does not match under trusted ones is where its own path breaks. -/
theorem fault_self {block : HashBlock} (mismatch : ¬ image.Matches block)
    (above : ∀ upper, image.HoldsEntry block upper → image.Trusted upper) : image.Fault block block := by
  refine ⟨.refl, mismatch, fun upper path => ?_⟩
  obtain ⟨first, holds, rest⟩ := Relation.TransGen.head'_iff.mp path
  exact above first holds upper rest

theorem Fault.up {lower upper fault : HashBlock} (holds : image.HoldsEntry lower upper)
    (found : image.Fault upper fault) : image.Fault lower fault :=
  ⟨.head holds found.1, found.2⟩

/-! ## Levels of a tree that was opened -/

/-- Blocks are not empty, and every block has an entry in the level above. -/
structure Fits (image : HashImage) : Prop where
  positive : ∀ number < image.placements.length, 0 < image.blockSize (number + 1)
  entries : ∀ number < image.placements.length,
    ((image.level (number + 1)).length + (image.blockSize (number + 1) - 1)) / image.blockSize (number + 1) *
      Sha256.size ≤ (image.level number).length

theorem lt_blockCount_iff {size blockSize number : Nat} (positive : 0 < blockSize) :
    number < (size + (blockSize - 1)) / blockSize ↔ number * blockSize < size := by
  rw [← Nat.succ_le_iff, Nat.le_div_iff_mul_le positive, Nat.succ_mul]
  omega

theorem HasBlock.entry_le {block : HashBlock} (fits : image.Fits) (has : image.HasBlock block) :
    block.index * Sha256.size + Sha256.size ≤ (image.level (block.level - 1)).length := by
  obtain ⟨first, last, inside⟩ := has
  obtain ⟨number, numbered⟩ : ∃ number, block.level = number + 1 := ⟨block.level - 1, by omega⟩
  rw [numbered] at inside last ⊢
  -- the block is counted, and there are as many entries as blocks
  have below := (lt_blockCount_iff (fits.positive number (by omega))).mpr inside
  have enough := Nat.le_trans (Nat.mul_le_mul_right Sha256.size below) (fits.entries number (by omega))
  rwa [Nat.succ_mul] at enough

/-- The blocks that hold the entry of a block exist. -/
theorem HasBlock.above {lower upper : HashBlock} (fits : image.Fits) (has : image.HasBlock lower)
    (holds : image.HoldsEntry lower upper) : image.HasBlock upper := by
  have entry := has.entry_le fits
  obtain ⟨first, last, -⟩ := has
  obtain ⟨above, start, stop⟩ := holds
  -- the master hash has no blocks that could hold the entry
  have named : 0 < lower.level - 1 := by
    cases number : lower.level - 1 with
    | zero => simp [number, blockSize] at stop
    | succ number => exact Nat.succ_pos _
  rw [← above] at named entry start
  exact ⟨named, by omega, by omega⟩

theorem HasBlock.onPath {lower upper : HashBlock} (fits : image.Fits) (has : image.HasBlock lower)
    (path : image.OnPath lower upper) : image.HasBlock upper := by
  induction path with
  | refl => exact has
  | tail _ holds inductionHypothesis => exact inductionHypothesis.above fits holds

end HashImage

end SealedContent
