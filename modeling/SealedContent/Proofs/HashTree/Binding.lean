import SealedContent.Proofs.HashTree.Levels
import SealedContent.Proofs.Storage.Holds

/-! # The master hash binds the data

Two trees with one master hash and one layout, opened under the failing policy over any two sections,
give the same bytes wherever both give any, as long as the hash tells the blocks of their levels
apart: `reads_agree`. The hashes of a level are read through the level above, so this is an induction
from the master hash down to the data.
-/

namespace SealedContent

/-- What is hashed for a block of one of the levels, if the bytes of the block can be read. -/
def HashedBlock (content : Storage) (placements : List HashPlacement) (padded : Bool) (hashed : Bytes) : Prop :=
  ∃ placement ∈ placements, ∃ index bytes, index * placement.blockSize < placement.size ∧
    content.byte?.window? (placement.offset + index * placement.blockSize)
      (blockLength placement.size placement.blockSize index) = some bytes ∧
    hashed = hashedBytes padded placement.blockSize bytes

/-- Where reads of both storages give bytes, they give the same. -/
def Agree (first second : Storage) : Prop :=
  ∀ (offset length : Nat) (bytes other : Bytes), first.outcome offset length = .ok bytes →
    second.outcome offset length = .ok other → bytes = other

/-! ## One block -/

theorem eq_zeros {bytes : Bytes} (zero : bytes.isZero = true) : bytes = Bytes.zeros bytes.length :=
  List.eq_replicate_of_mem (Bytes.isZero_iff.mp zero)

theorem hashedBytes_inj {padded : Bool} {blockSize : Nat} {bytes other : Bytes}
    (long : bytes.length = other.length)
    (same : hashedBytes padded blockSize bytes = hashedBytes padded blockSize other) : bytes = other := by
  simp only [hashedBytes] at same
  split at same
  · exact List.append_inj_left same long
  · exact same

/-- What holds of a block that the failing policy lets pass. -/
theorem accept_eq_ok {check : BlockCheck} (failing : check.policy = .fail) {size index : Nat}
    {data hashes : Fetch (Except Error)} {bytes : Bytes}
    (accepted : check.accept size data hashes index = .ok bytes) :
    data (index * check.blockSize) (blockLength size check.blockSize index) = .ok bytes ∧
    ∃ hash, hashes (index * Sha256.size) Sha256.size = .ok hash ∧
      ((hash.isZero = true ∧ bytes.isZero = true) ∨
        Sha256.digest (hashedBytes check.padded check.blockSize bytes) = hash) := by
  obtain ⟨⟨block, verdict⟩, judged, accepted⟩ := ok_of_bind accepted
  obtain ⟨block, found, judged⟩ := ok_of_bind judged
  obtain ⟨hash, entry, judged⟩ := ok_of_bind judged
  cases judged
  obtain ⟨_, passes, accepted⟩ := ok_of_bind accepted
  cases accepted
  refine ⟨found, hash, entry, ?_⟩
  by_contra differs
  have invalid := (check.verdict_eq bytes hash).trans (if_neg differs)
  simp [BlockCheck.refuse, invalid, failing] at passes

/-! ## One level -/

section

variable {content₁ content₂ : Storage} {placements : List HashPlacement} {padded : Bool}

/-- The blocks of two sections together. -/
def HashedIn (content₁ content₂ : Storage) (placements : List HashPlacement) (padded : Bool)
    (hashed : Bytes) : Prop :=
  HashedBlock content₁ placements padded hashed ∨ HashedBlock content₂ placements padded hashed

/-- The hash tells the blocks apart, and none of them has the digest that stands for zeros. -/
structure Separates (blocks : Bytes → Prop) : Prop where
  injective : ∀ block other, blocks block → blocks other →
    Sha256.digest block = Sha256.digest other → block = other
  nonzero : ∀ block, blocks block → Sha256.digest block ≠ Bytes.zeros Sha256.size

/-- Two blocks of one length with one entry are the same. -/
theorem Separates.bytes_eq {blocks : Bytes → Prop} (separates : Separates blocks) {blockSize : Nat}
    {bytes other hash : Bytes} (long : bytes.length = other.length)
    (block : blocks (hashedBytes padded blockSize bytes))
    (otherBlock : blocks (hashedBytes padded blockSize other))
    (matching : (hash.isZero = true ∧ bytes.isZero = true) ∨
      Sha256.digest (hashedBytes padded blockSize bytes) = hash)
    (otherMatching : (hash.isZero = true ∧ other.isZero = true) ∨
      Sha256.digest (hashedBytes padded blockSize other) = hash) : bytes = other := by
  -- an entry of zeros is no digest, so that it stands for zeros on both sides
  have digested : ∀ {string},
      blocks string → Sha256.digest string = hash → hash.isZero = true → False := by
    intro string block digest zero
    apply separates.nonzero string block
    rw [digest, eq_zeros zero, ← digest, Sha256.length_digest]
    rfl
  obtain ⟨zero, bytesZero⟩ | digest := matching
  · obtain ⟨-, otherZero⟩ | otherDigest := otherMatching
    · rw [eq_zeros bytesZero, eq_zeros otherZero, long]
    · exact (digested otherBlock otherDigest zero).elim
  · obtain ⟨zero, -⟩ | otherDigest := otherMatching
    · exact (digested block digest zero).elim
    · exact hashedBytes_inj long (separates.injective _ _ block otherBlock (digest.trans otherDigest.symm))

/-- A block of a level, as it is read and as it is hashed. -/
theorem hashedBlock_of_outcome {nodes : List Storage} (graph : Coherent nodes) {content data : Storage}
    (member : data ∈ nodes) {placement : HashPlacement} (placed : placement ∈ placements)
    (windowed : content.window placement.offset placement.size = .ok data) {index : Nat} {bytes : Bytes}
    (inside : index * placement.blockSize < placement.size)
    (read : data.outcome (index * placement.blockSize) (blockLength data.size placement.blockSize index) =
      .ok bytes) :
    bytes.length = blockLength placement.size placement.blockSize index ∧
      HashedBlock content placements padded (hashedBytes padded placement.blockSize bytes) := by
  have fits : index * placement.blockSize + blockLength placement.size placement.blockSize index ≤
      placement.size := by
    simp only [blockLength]
    omega
  have found := outcome_bytes graph member read
  rw [(size_window windowed).1, window?_window windowed fits] at found
  exact ⟨ByteMap.length_of_window? found, placement, placed, index, bytes, inside, found, rfl⟩

/-- Levels of the same layout agree under hashes that agree. -/
theorem agree_verified {nodes₁ nodes₂ : List Storage}
    (graph₁ : Coherent nodes₁) (graph₂ : Coherent nodes₂)
    (separates : Separates (HashedIn content₁ content₂ placements padded)) {placement : HashPlacement}
    (placed : placement ∈ placements) (positive : 0 < placement.blockSize) {number cell₁ cell₂ : Nat}
    {data₁ data₂ hashes₁ hashes₂ : Storage}
    (member₁ : data₁ ∈ nodes₁) (member₂ : data₂ ∈ nodes₂)
    (windowed₁ : content₁.window placement.offset placement.size = .ok data₁)
    (windowed₂ : content₂.window placement.offset placement.size = .ok data₂)
    (hashes : Agree hashes₁ hashes₂) :
    Agree (.verified cell₁ ⟨placement.blockSize, number, .fail, padded⟩ data₁ hashes₁)
      (.verified cell₂ ⟨placement.blockSize, number, .fail, padded⟩ data₂ hashes₂) := by
  intro offset length bytes other read₁ read₂
  have size₁ := (size_window windowed₁).1
  have size₂ := (size_window windowed₂).1
  have checked : Policy.fail ≠ .off := by decide
  obtain ⟨inside, ⟨empty, rfl⟩ | ⟨nonempty, blocks₁, taken₁, rfl⟩⟩ :=
    Storage.outcome_verified checked read₁
  all_goals
    obtain ⟨-, ⟨_, rfl⟩ | ⟨_, blocks₂, taken₂, rfl⟩⟩ := Storage.outcome_verified checked read₂
  · rfl
  · omega
  · omega
  -- both reads are cut out of the same blocks, so it is enough that each block agrees
  · suffices same : blocks₁ = blocks₂ by rw [same]
    refine mapM_agree (fun index touched block₁ block₂ accepted₁ accepted₂ => ?_) taken₁ taken₂
    have start := ((ByteMap.mem_touchedBlocks positive nonempty).mp touched).1
    obtain ⟨found₁, hash₁, entry₁, matching₁⟩ := accept_eq_ok rfl accepted₁
    obtain ⟨found₂, hash₂, entry₂, matching₂⟩ := accept_eq_ok rfl accepted₂
    have entry := hashes _ _ _ _ entry₁ entry₂
    rw [← entry] at matching₂
    have there : index * placement.blockSize < placement.size := by omega
    obtain ⟨long₁, hashed₁⟩ :=
      hashedBlock_of_outcome graph₁ member₁ placed windowed₁ there found₁
    obtain ⟨long₂, hashed₂⟩ :=
      hashedBlock_of_outcome graph₂ member₂ placed windowed₂ there found₂
    exact separates.bytes_eq (long₁.trans long₂.symm) (.inl hashed₁) (.inr hashed₂) matching₁ matching₂

/-! ## All levels -/

theorem LevelChain.agree {nodes₁ nodes₂ : List Storage}
    (graph₁ : Coherent nodes₁) (graph₂ : Coherent nodes₂)
    (separates : Separates (HashedIn content₁ content₂ placements padded)) {number : Nat}
    {hashes₁ : Storage} {rest : List HashPlacement} {levels₁ : List HashLevel}
    (chain₁ : LevelChain content₁ .fail padded number hashes₁ rest levels₁) :
    ∀ {hashes₂ : Storage} {levels₂ : List HashLevel},
    LevelChain content₂ .fail padded number hashes₂ rest levels₂ →
    (∀ placement ∈ rest, placement ∈ placements) →
    (∀ level ∈ levels₁, ∀ node ∈ level.nodes, node ∈ nodes₁) →
    (∀ level ∈ levels₂, ∀ node ∈ level.nodes, node ∈ nodes₂) → Agree hashes₁ hashes₂ →
    ∀ last₁ last₂, levels₁.getLast? = some last₁ → levels₂.getLast? = some last₂ →
      Agree last₁.storage last₂.storage := by
  induction chain₁ with
  | nil =>
    rintro hashes₂ levels₂ chain₂ placed members₁ members₂ hashes last₁ last₂ ⟨⟩ found₂
  | @cons number hashes₁ cell₁ data₁ rest levels₁ placement windowed₁ positive _ below
      inductionHypothesis =>
    intro hashes₂ levels₂ chain₂ placed members₁ members₂ hashes last₁ last₂ found₁ found₂
    cases chain₂ with
    | @cons _ _ cell₂ data₂ _ levels₂ _ windowed₂ _ _ below₂ =>
      have agree : Agree (.verified cell₁ ⟨placement.blockSize, number, .fail, padded⟩ data₁ hashes₁)
          (.verified cell₂ ⟨placement.blockSize, number, .fail, padded⟩ data₂ hashes₂) :=
        agree_verified graph₁ graph₂ separates (placed _ (.head _)) positive
          (members₁ _ (.head _) _ (by simp [HashLevel.nodes]))
          (members₂ _ (.head _) _ (by simp [HashLevel.nodes])) windowed₁ windowed₂ hashes
      have later := inductionHypothesis below₂ (fun other member => placed other (.tail _ member))
        (fun level member => members₁ level (.tail _ member))
        (fun level member => members₂ level (.tail _ member)) agree last₁ last₂
      -- the last level is this one or one of those below
      cases below with
      | nil =>
        cases below₂
        cases found₁
        cases found₂
        exact agree
      | cons =>
        cases below₂
        rw [List.getLast?_cons_cons] at found₁ found₂
        exact later found₁ found₂

end

/-- Trees under one master hash give the same data wherever both give any, whatever lies in their
    sections and whatever was read before. -/
theorem reads_agree {admits₁ admits₂ : StorageCipher → Nat → Prop} {content₁ content₂ : Storage} {master : Bytes}
    {placements : List HashPlacement} {padded : Bool} {tree₁ tree₂ : HashTree} {w₁ w₂ : Workspace}
    (opened₁ : OpenTreeOf admits₁ content₁ master placements padded .fail tree₁ w₁)
    (opened₂ : OpenTreeOf admits₂ content₂ master placements padded .fail tree₂ w₂)
    (separates : Separates (HashedIn content₁ content₂ placements padded)) {offset length : Nat}
    {bytes₁ bytes₂ : Bytes}
    (read₁ : (tree₁.storage.read offset length).result w₁.session = .ok bytes₁)
    (read₂ : (tree₂.storage.read offset length).result w₂.session = .ok bytes₂) :
    bytes₁ = bytes₂ := by
  have sound₁ := opened₁.sound
  have sound₂ := opened₂.sound
  have master : Agree (.ofBytes master) (.ofBytes master) := by
    intro offset length bytes other read readAgain
    rw [read] at readAgain
    cases readAgain
    rfl
  have agree := opened₁.chain.agree sound₁.graph sound₂.graph separates opened₂.chain
    (fun _ member => member)
    opened₁.nodes_mem opened₂.nodes_mem master tree₁.dataLevel tree₂.dataLevel
    (List.getLast?_eq_some_getLast _) (List.getLast?_eq_some_getLast _)
  rw [(tree₁.storage.read_answers sound₁.graph opened₁.storage_mem offset length _
    sound₁.remembers).1] at read₁
  rw [(tree₂.storage.read_answers sound₂.graph opened₂.storage_mem offset length _
    sound₂.remembers).1] at read₂
  exact agree offset length bytes₁ bytes₂ read₁ read₂

/-! ### Two sections under the hashes of one of them -/

/-- The first level: the hashes of two blocks. -/
def twoEntries : Bytes := Sha256.digest (.replicate 32 5) ++ Sha256.digest (.replicate 32 6)

/-- The hashes, the first block that they are for, and some second block. -/
def twoLevelBytes (byte : UInt8) : Bytes := twoEntries ++ (.replicate 32 5 ++ .replicate 32 byte)

def twoLevels (byte : UInt8) : Storage := .ofBytes (twoLevelBytes byte)

def twoPlacements : List HashPlacement := [⟨0, 64, 64⟩, ⟨64, 64, 32⟩]

/-- The blocks of both levels. -/
def twoLevelBlocks (byte : UInt8) : List Bytes := [twoEntries, .replicate 32 5, .replicate 32 byte]

theorem length_twoEntries : twoEntries.length = 64 := by simp [twoEntries, Sha256.length_digest]

theorem length_twoLevelBytes (byte : UInt8) : (twoLevelBytes byte).length = 128 := by
  simp [twoLevelBytes, length_twoEntries]

theorem hashed_twoLevels {byte : UInt8} {block : Bytes}
    (hashed : HashedBlock (twoLevels byte) twoPlacements false block) : block ∈ twoLevelBlocks byte := by
  have cut : ∀ {start count bytes}, start + count ≤ 128 →
      (twoLevels byte).byte?.window? start count = some bytes → bytes = (twoLevelBytes byte).window start count := by
    intro start count bytes inside found
    rw [twoLevels, (Storage.Holds.ofBytes _).map_eq,
      ByteMap.window?_getElem? (by rw [length_twoLevelBytes]; exact inside)] at found
    exact (Option.some.inj found).symm
  obtain ⟨placement, member, index, bytes, inside, found, rfl⟩ := hashed
  simp only [twoPlacements, List.mem_cons, List.not_mem_nil, or_false] at member
  obtain rfl | rfl := member
  · obtain rfl : index = 0 := by
      dsimp only at inside
      omega
    obtain rfl := cut (by decide) found
    have entries : (twoLevelBytes byte).window 0 64 = twoEntries := Bytes.window_append_first _ length_twoEntries
    exact entries ▸ .head _
  · have behind : ∀ {offset}, 64 ≤ offset → (twoLevelBytes byte).window offset 32 =
        Bytes.window (.replicate 32 5 ++ .replicate 32 byte) (offset - 64) 32 := by
      intro offset later
      rw [twoLevelBytes, Bytes.window_append_of_le (by rwa [length_twoEntries]), length_twoEntries]
    obtain rfl | rfl : index = 0 ∨ index = 1 := by
      dsimp only at inside
      omega
    · obtain rfl := cut (by decide) found
      show (twoLevelBytes byte).window 64 32 ∈ _
      rw [behind (Nat.le_refl 64)]
      exact .tail _ (.head _)
    · obtain rfl := cut (by decide) found
      show (twoLevelBytes byte).window 96 32 ∈ _
      rw [behind (show 64 ≤ 96 by decide)]
      exact .tail _ (.tail _ (.head _))

/-- Opens a section under the hash of the first level and reads from the first block. -/
def readFirst (byte : UInt8) : SessionM Bytes := do
  let tree ← HashTree.make (twoLevels byte) (Sha256.digest twoEntries) twoPlacements false .fail
  tree.storage.read 3 9

theorem opened_twoLevels {byte : UInt8} {bytes : Bytes} (reads : (readFirst byte).result {} = .ok bytes) : ∃ tree w,
    OpenTree (twoLevels byte) (Sha256.digest twoEntries) twoPlacements false .fail tree w ∧
      (tree.storage.read 3 9).result w.session = .ok bytes := by
  obtain ⟨tree, made, read⟩ := SessionM.bind_eq_ok reads
  have short : (twoLevelBytes byte).length < UInt64.size := by
    rw [length_twoLevelBytes]
    decide
  have master : (Sha256.digest twoEntries).length < UInt64.size := by
    rw [Sha256.length_digest]
    decide
  exact ⟨tree, _, .opened (.step .refl (.ofBytes short)) (.head _) master made .refl, read⟩

/-- The second block of one section does not match its entry, which no read of the first block notices. -/
theorem reads_agree_twoLevels : ∃ tree tree' w w',
    OpenTree (twoLevels 6) (Sha256.digest twoEntries) twoPlacements false .fail tree w ∧
    OpenTree (twoLevels 7) (Sha256.digest twoEntries) twoPlacements false .fail tree' w' ∧
    Separates (HashedIn (twoLevels 6) (twoLevels 7) twoPlacements false) ∧ twoLevelBytes 6 ≠ twoLevelBytes 7 ∧
    ∃ bytes other, (tree.storage.read 3 9).result w.session = .ok bytes ∧
      (tree'.storage.read 3 9).result w'.session = .ok other ∧ bytes = other := by
  have reads : ((readFirst 6).result {}).toOption = some (.replicate 9 5) ∧
      ((readFirst 7).result {}).toOption = some (.replicate 9 5) := by decide +kernel
  obtain ⟨tree, w, opened, read⟩ := opened_twoLevels (toOption_eq_some_iff.mp reads.1)
  obtain ⟨tree', w', opened', read'⟩ := opened_twoLevels (toOption_eq_some_iff.mp reads.2)
  have differ : twoLevelBytes 6 ≠ twoLevelBytes 7 := by simp [twoLevelBytes]
  have apart : ∀ block ∈ twoLevelBlocks 6 ++ twoLevelBlocks 7, Sha256.digest block ≠ Bytes.zeros Sha256.size ∧
      ∀ other ∈ twoLevelBlocks 6 ++ twoLevelBlocks 7, Sha256.digest block = Sha256.digest other → block = other := by
    decide +kernel
  have among : ∀ {block}, HashedIn (twoLevels 6) (twoLevels 7) twoPlacements false block →
      block ∈ twoLevelBlocks 6 ++ twoLevelBlocks 7 := fun hashed =>
    List.mem_append.mpr (hashed.imp hashed_twoLevels hashed_twoLevels)
  have separates : Separates (HashedIn (twoLevels 6) (twoLevels 7) twoPlacements false) :=
    ⟨fun block other hashed otherHashed => (apart block (among hashed)).2 other (among otherHashed),
      fun block hashed => (apart block (among hashed)).1⟩
  exact ⟨tree, tree', w, w', opened, opened', separates, differ, _, _, read, read',
    reads_agree opened opened' separates read read'⟩

end SealedContent
