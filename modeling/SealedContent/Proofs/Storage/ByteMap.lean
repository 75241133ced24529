import SealedContent.Proofs.Aes.Positions
import SealedContent.Proofs.Storage.Lookup

/-! # What a storage holds

`Storage.byte?` is the byte of a storage at a position, or nothing where the position cannot be read.
It is given by the bytes of the nodes below, one position at a time: no ranges, no tables, no
verdicts. `ByteMap.window?` puts the bytes of a range together, and `window?_blockwise` says when and
how a range may be put together from the blocks that it touches.
-/

namespace SealedContent

open Aes (keystreamByte generationCounter decryptSector decryptBlock Block)

/-- Bytes by position, where there are any. -/
abbrev ByteMap := Nat → Option UInt8

namespace ByteMap

/-- The bytes of a range, if all of them are there. -/
def window? (map : ByteMap) (offset length : Nat) : Option Bytes := (List.range' offset length).mapM map

/-! ## One map from another -/

/-- The positions of blocks one after the other. -/
def blockwise (blockSize : Nat) (block : (number : Nat) → Option Bytes) : ByteMap := fun position =>
  (block (position / blockSize)).bind (·[position % blockSize]?)

/-- Through a cache a position needs the whole block around it. -/
def cached (blockSize size : Nat) (inner : ByteMap) : ByteMap := fun position =>
  let block := position / blockSize
  if (inner.window? (block * blockSize) (blockLength size blockSize block)).isSome then inner position
  else none

/-- A position of whole units needs all of its unit, which is decrypted under its number. -/
def units (unit : Nat) (plain : (number : Nat) → Bytes → Bytes) (inner : ByteMap) : ByteMap :=
  blockwise unit fun number => (inner.window? (number * unit) unit).map (plain number)

/-- A position under a cipher. Counters depend on the position only, and with a table on the
    subsection around it. -/
def decrypted (cipher : StorageCipher) (inner : ByteMap) : ByteMap :=
  match cipher with
  | .ctr key counter => fun position => (inner position).map (· ^^^ keystreamByte key counter position)
  | .generations key upper start table => fun position =>
    match table.find? position with
    | some (entry, _) => (inner position).map
        (· ^^^ keystreamByte key (generationCounter upper entry.generation) (start + position))
    | none => none
  | .xts key sectorSize first =>
    if sectorSize % Aes.blockSize = 0 then
      units sectorSize (fun number sector => decryptSector key (first + number) sector) inner
    else fun _ => none
  | .ecb key =>
    units Aes.blockSize (fun _ block => (decryptBlock key (.ofBytes block)).toBytes) inner

/-- A position of a relocation table: as far into the source of its entry as into its range. -/
def relocated (table : BucketTree Relocation) (base patch : ByteMap) : ByteMap := fun position =>
  match table.find? position with
  | some (entry, _) =>
    (entry.choose? base patch).bind (· (entry.source + (position - entry.offset)))
  | none => none

/-- A checked block needs its hash, and under the failing policy a verdict other than invalid. -/
def accepted? (check : BlockCheck) (size : Nat) (data hashes : ByteMap) (block : Nat) : Option Bytes := do
  let bytes ← data.window? (block * check.blockSize) (blockLength size check.blockSize block)
  let hash ← hashes.window? (block * Sha256.size) Sha256.size
  if check.verdict bytes hash = .invalid ∧ check.policy = .fail then none else some bytes

/-- Under a policy a position needs the whole block around it, accepted. -/
def verified (check : BlockCheck) (size : Nat) (data hashes : ByteMap) : ByteMap := fun position =>
  if check.policy = .off then data position
  else
    if (accepted? check size data hashes (position / check.blockSize)).isSome then data position
    else none

end ByteMap

namespace Storage

mutual

/-- The byte at a position, if the position can be read. -/
def byte? : Storage → ByteMap
  | memory bytes => fun position => bytes[position]?
  | stream source => fun position => source[position]?
  | slice parent start length => fun position =>
    if position < length then parent.byte? (start + position) else none
  | cache _ inner blockSize _ => inner.byte?.cached blockSize inner.size
  | decrypt inner cipher => inner.byte?.decrypted cipher
  | concat segments => segmentsByte? segments
  | indirect base patch table => .relocated table base.byte? patch.byte?
  | verified _ check data hashes => .verified check data.size data.byte? hashes.byte?

/-- The byte at a position of several storages end to end. -/
def segmentsByte? : List Storage → ByteMap
  | [] => fun _ => none
  | segment :: rest => fun position =>
    if position < segment.size then segment.byte? position
    else segmentsByte? rest (position - segment.size)

end

end Storage

/-! ## Lists of computations -/

theorem isSome_mapM_iff {α β : Type} {f : α → Option β} {items : List α} :
    (items.mapM f).isSome ↔ ∀ item ∈ items, (f item).isSome := by
  induction items with
  | nil => simp
  | cons first rest inductionHypothesis =>
    rw [List.mapM_cons, List.forall_mem_cons, ← inductionHypothesis]
    cases f first with
    | none => simp
    | some value => cases rest.mapM f <;> simp

theorem mem_of_mapM {α β : Type} {f : α → Option β} {items : List α} {values : List β} {value : β}
    (there : items.mapM f = some values) (member : value ∈ values) :
    ∃ item ∈ items, f item = some value := by
  induction items generalizing values with
  | nil =>
    cases there
    cases member
  | cons first rest inductionHypothesis =>
    simp only [List.mapM_cons, Option.bind_eq_bind, Option.pure_def, Option.bind_eq_some_iff,
      Option.some.injEq] at there
    obtain ⟨firstValue, found, others, othersFound, rfl⟩ := there
    cases List.mem_cons.mp member with
    | inl same => exact ⟨first, by simp, by rw [same, found]⟩
    | inr later =>
      obtain ⟨item, itemMember, itemFound⟩ := inductionHypothesis othersFound later
      exact ⟨item, by simp [itemMember], itemFound⟩

/-! ## Windows -/

namespace ByteMap

variable {map other : ByteMap} {offset length : Nat} {bytes : Bytes}

@[simp] theorem window?_zero (map : ByteMap) (offset : Nat) : map.window? offset 0 = some [] := rfl

theorem window?_add (map : ByteMap) (offset first second : Nat) :
    map.window? offset (first + second) = (map.window? offset first).bind fun before =>
      (map.window? (offset + first) second).map (before ++ ·) := by
  simp only [window?]
  rw [← List.range'_append_1, List.mapM_append]
  cases (List.range' offset first).mapM map with
  | none => rfl
  | some before => cases (List.range' (offset + first) second).mapM map <;> rfl

theorem window?_append {before after : Bytes} {second : Nat}
    (first : map.window? offset length = some before)
    (rest : map.window? (offset + length) second = some after) :
    map.window? offset (length + second) = some (before ++ after) := by
  simp [window?_add, first, rest]

theorem isSome_window?_iff :
    (map.window? offset length).isSome ↔ ∀ i < length, (map (offset + i)).isSome := by
  simp only [window?]
  rw [isSome_mapM_iff]
  constructor
  · exact fun all i inside => all _ (by rw [List.mem_range'_1]; omega)
  · intro all position member
    rw [List.mem_range'_1] at member
    have found := all (position - offset) (by omega)
    rwa [show offset + (position - offset) = position by omega] at found

theorem window?_eq_some_iff :
    map.window? offset length = some bytes ↔
      bytes.length = length ∧ ∀ i < length, map (offset + i) = bytes[i]? := by
  induction length generalizing offset bytes with
  | zero => simp [eq_comm]
  | succ length inductionHypothesis =>
    rw [Nat.add_comm, window?_add, Option.bind_eq_some_iff]
    have head : map.window? offset 1 = (map offset).map ([·]) := by
      simp only [window?]
      rw [List.range'_one, List.mapM_cons]
      cases map offset <;> rfl
    simp only [head, Option.map_eq_some_iff, inductionHypothesis]
    constructor
    · rintro ⟨_, ⟨byte, first, rfl⟩, rest, ⟨long, all⟩, rfl⟩
      refine ⟨by simp [long]; omega, fun i inside => ?_⟩
      cases i with
      | zero => simpa using first
      | succ i => simpa [Nat.add_assoc, Nat.add_comm 1 i] using all i (by omega)
    · rintro ⟨long, all⟩
      cases bytes with
      | nil => simp at long; omega
      | cons byte rest =>
        refine ⟨_, ⟨byte, by simpa using all 0 (by omega), rfl⟩, rest,
          ⟨?_, fun i inside => ?_⟩, rfl⟩
        · simp only [List.length_cons] at long; omega
        · have found := all (i + 1) (by omega)
          simpa [Nat.add_assoc, Nat.add_comm 1 i] using found

theorem length_of_window? (found : map.window? offset length = some bytes) : bytes.length = length :=
  (window?_eq_some_iff.mp found).1

theorem window?_congr {start : Nat} (same : ∀ i < length, map (offset + i) = other (start + i)) :
    map.window? offset length = other.window? start length := by
  ext bytes
  rw [window?_eq_some_iff, window?_eq_some_iff]
  exact and_congr_right fun _ => forall₂_congr fun i inside => by rw [same i inside]

/-- A range inside a range that is there. -/
theorem window?_inside {start count : Nat} (found : map.window? offset length = some bytes)
    (inside : start + count ≤ length) :
    map.window? (offset + start) count = some (bytes.window start count) := by
  obtain ⟨long, all⟩ := window?_eq_some_iff.mp found
  refine window?_eq_some_iff.mpr ⟨Bytes.length_window (by omega), fun i before => ?_⟩
  rw [Bytes.getElem?_window before, Nat.add_assoc, all (start + i) (by omega)]

/-- What is left of a range behind its first bytes. -/
theorem window?_drop {count : Nat} (found : map.window? offset length = some bytes)
    (inside : count ≤ length) :
    map.window? (offset + count) (bytes.drop count).length = some (bytes.drop count) := by
  have long := length_of_window? found
  have rest : map.window? (offset + count) (length - count) = _ := window?_inside found (by omega)
  rwa [Bytes.window, List.take_of_length_le (by rw [List.length_drop, long]), ← long,
    ← List.length_drop] at rest

/-! ## Blocks -/

variable {blockSize size : Nat} {block : Nat → Option Bytes}

theorem blockwise_at (positive : 0 < blockSize) (number : Nat) {i : Nat} (inside : i < blockSize) :
    blockwise blockSize block (number * blockSize + i) = (block number).bind (·[i]?) := by
  simp only [blockwise]
  rw [Nat.mul_comm, Nat.mul_add_div positive, Nat.div_eq_of_lt inside, Nat.mul_add_mod,
    Nat.mod_eq_of_lt inside, Nat.add_zero]

theorem window?_block (positive : 0 < blockSize) {number : Nat} (there : block number = some bytes)
    (short : bytes.length ≤ blockSize) :
    (blockwise blockSize block).window? (number * blockSize) bytes.length = some bytes := by
  refine window?_eq_some_iff.mpr ⟨rfl, fun i inside => ?_⟩
  rw [blockwise_at positive number (by omega), there]
  rfl

/-- Blocks one after the other are the range from the first of them to the end of the last. -/
theorem window?_blocks (positive : 0 < blockSize)
    (lengths : ∀ number bytes, block number = some bytes → bytes.length = blockLength size blockSize number)
    {count : Nat} : ∀ {first : Nat} {blocks : List Bytes},
    (List.range' first count).mapM block = some blocks →
    (blockwise blockSize block).window? (first * blockSize)
      (min (count * blockSize) (size - first * blockSize)) = some blocks.flatten := by
  induction count with
  | zero =>
    intro first blocks there
    cases there
    simp
  | succ count inductionHypothesis =>
    intro first blocks there
    rw [List.range'_succ, List.mapM_cons] at there
    simp only [Option.bind_eq_bind, Option.pure_def, Option.bind_eq_some_iff] at there
    obtain ⟨bytes, firstThere, rest, restThere, same⟩ := there
    cases same
    have long := lengths first bytes firstThere
    have restFound := inductionHypothesis restThere
    have firstFound := window?_block positive firstThere (by rw [long]; exact Nat.min_le_left _ _)
    simp only [blockLength] at long
    rw [Nat.succ_mul] at restFound
    rw [Nat.succ_mul, List.flatten_cons]
    by_cases whole : first * blockSize + blockSize ≤ size
    · have split : min (count * blockSize + blockSize) (size - first * blockSize) =
          bytes.length + min (count * blockSize) (size - (first * blockSize + blockSize)) := by omega
      rw [split]
      apply window?_append firstFound
      rwa [long, Nat.min_eq_left (by omega)]
    · -- the last block: no byte comes after it
      have none : min (count * blockSize) (size - (first * blockSize + blockSize)) = 0 := by omega
      have last : min (count * blockSize + blockSize) (size - first * blockSize) = bytes.length := by omega
      rw [none, window?_zero, Option.some.injEq] at restFound
      rw [last, ← restFound, List.append_nil]
      exact firstFound

theorem mem_touchedBlocks (positive : 0 < blockSize) {offset length number : Nat} (nonempty : 0 < length) :
    number ∈ touchedBlocks blockSize offset length ↔
      number * blockSize < offset + length ∧ offset < (number + 1) * blockSize := by
  simp only [touchedBlocks]
  have ordered : offset / blockSize ≤ (offset + length - 1) / blockSize := Nat.div_le_div_right (by omega)
  have start : number ≤ (offset + length - 1) / blockSize ↔ number * blockSize ≤ offset + length - 1 :=
    Nat.le_div_iff_mul_le positive
  have stop : offset / blockSize < number + 1 ↔ offset < (number + 1) * blockSize :=
    Nat.div_lt_iff_lt_mul positive
  rw [List.mem_range'_1]
  omega

/-- A range of blocks is there with every block that it touches, and is cut out of them. -/
theorem window?_blockwise (positive : 0 < blockSize)
    (lengths : ∀ number bytes, block number = some bytes → bytes.length = blockLength size blockSize number)
    {offset length : Nat} (nonempty : 0 < length) (inside : offset + length ≤ size) :
    (blockwise blockSize block).window? offset length =
      ((touchedBlocks blockSize offset length).mapM block).map (cutRange blockSize offset length) := by
  cases there : (touchedBlocks blockSize offset length).mapM block with
  | some blocks =>
    have division := Nat.div_add_mod offset blockSize
    have lastDivision := Nat.div_add_mod (offset + length - 1) blockSize
    have lastRemainder := Nat.mod_lt (offset + length - 1) positive
    have ordered : offset / blockSize ≤ (offset + length - 1) / blockSize :=
      Nat.div_le_div_right (by omega)
    rw [Nat.mul_comm] at division lastDivision
    have cut : offset % blockSize + length ≤
        min (((offset + length - 1) / blockSize + 1 - offset / blockSize) * blockSize)
          (size - offset / blockSize * blockSize) := by
      rw [Nat.sub_mul, Nat.succ_mul]
      omega
    have found := window?_inside (window?_blocks positive lengths there) cut
    rwa [division] at found
  | none =>
    -- a touched block that is missing leaves a position of the range out
    cases whole : (blockwise blockSize block).window? offset length with
    | none => rfl
    | some bytes =>
      have all := isSome_window?_iff.mp (Option.isSome_of_eq_some whole)
      have complete : ((touchedBlocks blockSize offset length).mapM block).isSome := by
        rw [isSome_mapM_iff]
        intro number member
        obtain ⟨start, stop⟩ := (mem_touchedBlocks positive nonempty).mp member
        rw [Nat.succ_mul] at stop
        have position := all (max offset (number * blockSize) - offset) (by omega)
        rw [show offset + (max offset (number * blockSize) - offset) =
          number * blockSize + (max offset (number * blockSize) - number * blockSize) by omega,
          blockwise_at positive number (by omega)] at position
        cases found : block number with
        | none => simp [found] at position
        | some bytes => rfl
      rw [there] at complete
      cases complete

end ByteMap

end SealedContent
