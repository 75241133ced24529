import SealedContent.Proofs.HashTree.Valid
import SealedContent.Proofs.Storage.Lasting

/-! # Trees that were built over their data

`hashTable` is the string of the digests of the blocks of a string, and `levelBytes` repeats it from the data up, one
level at a time. A section carries such levels if each of them stands where the layout says: `Carries`. Its levels are
valid, so a tree over it opens under every policy, is found valid, has only valid verdicts from then on, and all of
its data are read: `Accepts`, `honest_accepted`.
-/

namespace SealedContent

open Workspace (Step Steps)

/-! ## Digests of blocks -/

/-- The digests of the blocks of a string, one behind the other. -/
def hashTable (padded : Bool) (blockSize : Nat) (bytes : Bytes) : Bytes :=
  ((bytes.chunks blockSize).map fun block => Sha256.digest (hashedBytes padded blockSize block)).flatten

section
variable {padded : Bool} {blockSize : Nat} {bytes : Bytes}

theorem length_of_mem_digests : ∀ digest ∈ (bytes.chunks blockSize).map fun block =>
    Sha256.digest (hashedBytes padded blockSize block), digest.length = Sha256.size := by
  intro digest member
  obtain ⟨block, -, rfl⟩ := List.mem_map.mp member
  exact Sha256.length_digest _

theorem length_hashTable (positive : 0 < blockSize) : (hashTable padded blockSize bytes).length =
    (bytes.length + (blockSize - 1)) / blockSize * Sha256.size := by
  rw [hashTable, length_flatten_pieces _ length_of_mem_digests, List.length_map]
  refine congrArg (· * Sha256.size) (eq_of_forall_lt_iff fun i => ?_)
  rw [Bytes.lt_length_chunks_iff positive, HashImage.lt_blockCount_iff positive]

/-- The entry of a block in the table is its digest. -/
theorem window_hashTable (positive : 0 < blockSize) {index : Nat} (inside : index * blockSize < bytes.length) :
    (hashTable padded blockSize bytes).window (index * Sha256.size) Sha256.size =
      Sha256.digest (hashedBytes padded blockSize (bytes.window (index * blockSize) blockSize)) := by
  have counted := (Bytes.lt_length_chunks_iff positive).mpr inside
  have found := @Bytes.getElem?_chunks bytes blockSize positive index
  rw [if_pos inside] at found
  obtain ⟨_, block⟩ := List.getElem?_eq_some_iff.mp found
  rw [hashTable, Bytes.window_flatten length_of_mem_digests index (by rwa [List.length_map]), List.getElem_map, block]

/-- The table of a single block is its digest, and nothing if the block is empty. -/
theorem hashTable_single (short : bytes.length ≤ blockSize) :
    hashTable padded blockSize bytes <+: Sha256.digest (hashedBytes padded blockSize bytes) := by
  by_cases empty : bytes = []
  · simp [hashTable, empty]
  · have positive : 0 < bytes.length := List.length_pos_iff.mpr empty
    have single : bytes.chunks blockSize = [bytes] := by
      rw [Bytes.chunks, dif_neg (by rintro (zero | none); omega; exact empty none), List.take_of_length_le short,
        List.drop_eq_nil_of_le short, Bytes.chunks_nil]
    simp [hashTable, single]

end

/-- Data under their hash table, which may be followed by anything. -/
theorem ValidBlocks.of_hashTable {check : BlockCheck} (positive : 0 < check.blockSize) {node above : Storage}
    {bytes hashes : Bytes} (holds : node.Holds bytes) (aboveHolds : above.Holds hashes)
    (starts : hashTable check.padded check.blockSize bytes <+: hashes) :
    ValidBlocks check node.size node.byte? above.byte? := by
  intro index inside
  rw [holds.size] at inside ⊢
  obtain ⟨rest, rfl⟩ := starts
  have entry : index * Sha256.size + Sha256.size ≤ (hashTable check.padded check.blockSize bytes).length := by
    rw [length_hashTable positive, ← Nat.succ_mul]
    exact Nat.mul_le_mul_right _ ((HashImage.lt_blockCount_iff positive).mpr inside)
  refine ⟨bytes.window (index * check.blockSize) check.blockSize, Sha256.digest (hashedBytes check.padded
    check.blockSize (bytes.window (index * check.blockSize) check.blockSize)), ?_, ?_, ?_⟩
  · rw [holds.map_eq, ByteMap.window?_getElem? (by rw [blockLength]; omega)]
    simp only [Bytes.window, blockLength]
    rw [← List.length_drop, Nat.min_comm, ← List.take_take, List.take_of_length_le (List.length_take_le' _ _)]
  · rw [aboveHolds.map_eq, ByteMap.window?_getElem? (by rw [List.length_append]; omega),
      Bytes.window_append_left entry, window_hashTable positive inside]
  · rw [check.verdict_eq, if_pos (.inr rfl)]

/-! ## Levels -/

/-- What stands above some levels: the digests of the blocks of the first one, or the data if there are none. -/
def levelBytes (padded : Bool) (data : Bytes) : List HashPlacement → Bytes
  | [] => data
  | placement :: rest => hashTable padded placement.blockSize (levelBytes padded data rest)

/-- Every level stands in the section where the layout says, made from the one below it. -/
def Carries (w : Workspace) (content : Storage) (padded : Bool) (data : Bytes) : List HashPlacement → Prop
  | [] => True
  | placement :: rest =>
    (content.read placement.offset placement.size).result w.session = .ok (levelBytes padded data rest) ∧
      Carries w content padded data rest

variable {w : Workspace} {content hashes : Storage} {padded : Bool} {data : Bytes} {placements : List HashPlacement}

/-- The levels of a section that carries them are valid, from the top down. -/
theorem Carries.validLevels (sound : w.Sound) (member : content ∈ w.nodes) (contentFits : content.Fits)
    (positive : ∀ placement ∈ placements, 0 < placement.blockSize)
    (carries : Carries w content padded data placements) {top : Storage} {above : Bytes} (holds : top.Holds above)
    (starts : levelBytes padded data placements <+: above) : ValidLevels content padded top placements := by
  induction placements generalizing top above with
  | nil => exact .nil
  | cons placement rest inductionHypothesis =>
    obtain ⟨here, below⟩ := carries
    obtain ⟨blockPositive, restPositive⟩ := List.forall_mem_cons.mp positive
    obtain ⟨cut, windowed, cutHolds⟩ := Storage.Holds.of_read sound member contentFits here
    refine .cons windowed blockPositive ?_ (.of_hashTable blockPositive cutHolds holds starts)
      (inductionHypothesis restPositive below cutHolds List.prefix_rfl)
    rw [cutHolds.size, holds.size, ← @length_hashTable padded _ _ blockPositive]
    exact starts.length_le

theorem Carries.holds_last (sound : w.Sound) (member : content ∈ w.nodes) (contentFits : content.Fits)
    (carries : Carries w content padded data placements) {last : HashPlacement}
    (found : placements.getLast? = some last) :
    ∃ cut, content.window last.offset last.size = .ok cut ∧ cut.Holds data := by
  induction placements with
  | nil => cases found
  | cons placement rest inductionHypothesis =>
    cases rest with
    | nil =>
      cases found
      exact Storage.Holds.of_read sound member contentFits carries.1
    | cons next rest =>
      rw [List.getLast?_cons_cons] at found
      exact inductionHypothesis carries.2 found

/-! ## Trees -/

/-- A tree with this many levels is opened. It is found valid whenever it is validated, all of its levels are recorded
    as valid after that, and its data are read. -/
def Accepts (w : Workspace) (action : SessionM HashTree) (count : Nat) (data : Bytes) : Prop :=
  ∃ tree last, action.result w.session = .ok tree ∧ Steps w last ∧ last.session = action.after w.session ∧
    ∀ later, Steps last later → tree.validate.result later.session = .ok .valid ∧
      tree.levelValidity (tree.validate.after later.session) = List.replicate count .valid ∧
      ∀ offset length, (tree.storage.read offset length).result later.session =
        if offset + length ≤ data.length then .ok (data.window offset length)
        else .error (.outOfRange offset length data.length)

theorem LevelChain.length_eq {policy : Policy} {number : Nat} {levels : List HashLevel}
    (chain : LevelChain content policy padded number hashes placements levels) :
    levels.length = placements.length := by
  induction chain with
  | nil => rfl
  | cons _ _ _ _ inductionHypothesis => rw [List.length_cons, List.length_cons, inductionHypothesis]

/-- The verdict that is recorded on a block of a valid level. -/
theorem HashLevel.blockValidity_eq_valid (sound : w.Sound) {level : HashLevel} (member : level.storage ∈ w.nodes)
    (valid : level.validation = .ok .valid) {block : Nat} (inside : block < level.blockCount)
    (decided : w.session.Decided level.cell block) : level.blockValidity w.session block = .valid := by
  obtain ⟨bytes, judged⟩ := sound.remembers.verdicts member block decided.2
  have found := mergeAll_mapM_eq_valid_iff.mp valid block (List.mem_range.mpr inside)
  rw [judged] at found
  exact Except.ok.inj found

/-- After its validation a tree that is valid throughout records so for every level. -/
theorem HashTree.levelValidity_eq (sound : w.Sound) {tree : HashTree}
    (members : ∀ level ∈ tree.levels, level.storage ∈ w.nodes)
    (valid : ∀ level ∈ tree.levels, level.validation = .ok .valid)
    (gives : tree.validate.result w.session = .ok .valid) :
    tree.levelValidity (tree.validate.after w.session) = List.replicate tree.levels.length .valid := by
  have afterSound : (w.left tree.validate).Sound := sound.keeps (HashTree.validate_answers sound.graph members).keeps
  have decided := HashTree.validate_decides
    (fun level member => sound.remembers.cellMade _ (members level member) _ rfl) gives
  rw [levelValidity, List.eq_replicate_iff]
  refine ⟨List.length_map _, fun verdict listed => ?_⟩
  obtain ⟨level, member, rfl⟩ := List.mem_map.mp listed
  refine Validity.mergeAll_eq_valid_iff.mpr fun outcome found => ?_
  obtain ⟨block, inside, rfl⟩ := List.mem_map.mp found
  have inside := List.mem_range.mp inside
  exact HashLevel.blockValidity_eq_valid afterSound (members level member) (valid level member) inside
    (decided level member block inside)

/-- A tree over valid levels is accepted under every policy. -/
theorem ValidLevels.accepts (sound : w.Sound) (member : content ∈ w.nodes) (contentFits : content.Fits)
    {master : Bytes} (short : master.length < UInt64.size)
    (levelsValid : ValidLevels content padded (.ofBytes master) placements) {last : HashPlacement} (found : placements.getLast? = some last) {cut : Storage}
    (windowed : content.window last.offset last.size = .ok cut) (holds : cut.Holds data) (policy : Policy) :
    Accepts w (HashTree.make content master placements padded policy) placements.length data := by
  have nonempty : placements ≠ [] := by
    rintro rfl
    cases found
  obtain ⟨tree, made⟩ := levelsValid.make_ok sound member contentFits short (.refl _) nonempty policy
  have step : Step w ((w.left (HashTree.make content master placements padded policy)).addTree tree) :=
    .tree member short made
  have chain := levelChain_of_make made
  have valid := levelsValid.validBlocks chain (.refl _) (.refl _) contentFits trivial
  have among : ∀ level ∈ tree.levels, level.storage ∈ tree.nodes := fun level member =>
    List.mem_flatMap.mpr ⟨level, member, by simp [HashLevel.nodes]⟩
  have levelsFit : ∀ level ∈ tree.levels, level.storage.Fits := fun level member =>
    Workspace.fits_of_levelChain chain contentFits trivial _ (among level member)
  -- the checked data level has the bytes of its window, whatever the policy
  have dataHolds : tree.storage.Holds data := by
    obtain ⟨bottom, lastFound, dataCut⟩ := chain.window_last (List.getLast?_eq_some_getLast tree.nonempty)
    obtain rfl : bottom = last := Option.some.inj (lastFound.symm.trans found)
    obtain rfl : cut = tree.dataLevel.data := Except.ok.inj (windowed.symm.trans dataCut)
    have clear := (valid _ (List.getLast_mem tree.nonempty)).verified_eq (window_outside dataCut)
    exact ⟨holds.size, fun position => (congrFun clear position).trans (holds.byte position),
      levelsFit _ (List.getLast_mem tree.nonempty)⟩
  refine ⟨tree, _, made, .step .refl step, rfl, fun later steps => ?_⟩
  have laterSound := steps.sound (step.sound sound)
  have members : ∀ level ∈ tree.levels, level.storage ∈ later.nodes := fun level member =>
    steps.nodes_subset _ (List.mem_append_left _ (among level member))
  have judged : ∀ level ∈ tree.levels, level.validation = .ok .valid := fun level member =>
    (HashLevel.validation_eq_valid_iff laterSound.graph (members level member) (levelsFit level member)).mpr
      (valid level member)
  have validated : tree.validate.result later.session = .ok .valid := by
    rw [(tree.validate_answers laterSound.graph members _ laterSound.remembers).1]
    exact HashTree.validation_eq_valid_iff.mpr judged
  refine ⟨validated, ?_, fun offset length => ?_⟩
  · rw [tree.levelValidity_eq laterSound members judged validated, chain.length_eq]
  · have kept : tree.storage ∈ later.nodes := members _ (List.getLast_mem tree.nonempty)
    split
    · next inside => exact dataHolds.read laterSound kept inside
    · next outside => exact dataHolds.read_outside laterSound kept (by omega)

/-- A tree over the levels that a section carries, under the digest of its first level. -/
theorem Carries.accepts (sound : w.Sound) (member : content ∈ w.nodes) (contentFits : content.Fits)
    {first : HashPlacement} {rest : List HashPlacement} (positive : ∀ placement ∈ first :: rest, 0 < placement.blockSize)
    (carries : Carries w content padded data (first :: rest))
    (fits : (levelBytes padded data rest).length ≤ first.blockSize) (policy : Policy) :
    Accepts w (HashTree.make content (Sha256.digest (hashedBytes padded first.blockSize (levelBytes padded data rest)))
      (first :: rest) padded policy) (rest.length + 1) data := by
  have levelsValid := carries.validLevels sound member contentFits positive (.ofBytes _) (hashTable_single fits)
  have found := List.getLast?_eq_some_getLast (List.cons_ne_nil first rest)
  obtain ⟨cut, windowed, holds⟩ := carries.holds_last sound member contentFits found
  have short : ∀ bytes, (Sha256.digest bytes).length < UInt64.size := by
    intro bytes
    rw [Sha256.length_digest]
    decide
  exact levelsValid.accepts sound member contentFits (short _) found windowed holds policy

/-- A section with data, and with the digests of their blocks level by level above them, is accepted under every
    policy. In the layout of a table the master hash is the digest of the whole table and the last block is hashed as
    it is. In the layout of several levels all blocks are hashed with zeros up to their size, and the first level is
    one block under the master hash. -/
theorem honest_accepted (reached : Steps {} w) (member : content ∈ w.nodes) (data : Bytes) :
    (∀ (table region : Region) (blockSize : Nat), 0 < blockSize →
      (content.read region.offset region.size).result w.session = .ok data →
      (content.read table.offset table.size).result w.session = .ok (hashTable false blockSize data) →
      ∀ policy, Accepts w (HashTree.ofTable content (Sha256.digest (hashTable false blockSize data)) table region
        blockSize policy) 2 data) ∧
    ∀ (first : HashPlacement) (rest : List HashPlacement),
      (∀ placement ∈ first :: rest, 0 < placement.blockSize) →
      Carries w content true data (first :: rest) → (levelBytes true data rest).length ≤ first.blockSize →
      ∀ policy, Accepts w (HashTree.ofLevels content
        (Sha256.digest ((levelBytes true data rest).zeroExtend first.blockSize)) (first :: rest) policy)
          (rest.length + 1) data := by
  have sound := Workspace.sound_of_steps reached
  have contentFits := Workspace.fits_of_steps reached content member
  constructor
  · intro table region blockSize positive dataRead tableRead policy
    have carries : Carries w content false data
        [⟨table.offset, table.size, max table.size 1⟩, ⟨region.offset, region.size, blockSize⟩] :=
      ⟨tableRead, dataRead, trivial⟩
    refine carries.accepts sound member contentFits ?_ ?_ policy
    · simp only [List.forall_mem_cons]
      exact ⟨by omega, positive, List.forall_mem_nil _⟩
    -- the table is one block, whatever its length
    · obtain ⟨cut, windowed, holds⟩ := Storage.Holds.of_read sound member contentFits tableRead
      have long := holds.size.symm.trans (size_window windowed).1
      simp only [levelBytes]
      omega
  · intro first rest positive carries fits policy
    exact carries.accepts sound member contentFits positive fits policy

/-- The digests of the blocks of three bytes, and the bytes behind them. The last block is short. -/
def tableOfThree (padded : Bool) : Bytes := hashTable padded 2 [1, 2, 3] ++ [1, 2, 3]

def workspaceOfThree (padded : Bool) : Workspace := Workspace.add {} (.ofBytes (tableOfThree padded))

theorem read_tableOfThree (padded : Bool) :
    ((Storage.ofBytes (tableOfThree padded)).read 0 64).result (workspaceOfThree padded).session =
      .ok (hashTable padded 2 [1, 2, 3]) ∧
    ((Storage.ofBytes (tableOfThree padded)).read 64 3).result (workspaceOfThree padded).session =
      .ok [1, 2, 3] ∧ Steps {} (workspaceOfThree padded) := by
  have table : (hashTable padded 2 [1, 2, 3]).length = 64 := length_hashTable (by decide)
  have whole : (tableOfThree padded).length = 67 := by
    rw [tableOfThree, List.length_append, table]
    rfl
  have reached : Steps {} (workspaceOfThree padded) := by
    refine .step .refl (.memory ?_)
    rw [List.size_toArray, whole]
    decide
  have reads : ∀ {offset length}, offset + length ≤ 67 → _ := fun inside =>
    (Storage.Holds.ofBytes (tableOfThree padded)).read (Workspace.sound_of_steps reached) (.head _)
      (inside.trans whole.ge)
  refine ⟨?_, ?_, reached⟩
  · rw [reads (by decide), tableOfThree, Bytes.window_append_first _ table]
  · rw [reads (by decide), tableOfThree, Bytes.window_append_of_le table.le, table]
    rfl

/-- The table of three bytes, as the only block under its master hash. -/
theorem honest_accepted_three :
    (∀ policy, Accepts (workspaceOfThree false) (HashTree.ofTable (.ofBytes (tableOfThree false))
      (Sha256.digest (hashTable false 2 [1, 2, 3])) ⟨0, 64⟩ ⟨64, 3⟩ 2 policy) 2 [1, 2, 3]) ∧
    ∀ policy, Accepts (workspaceOfThree true) (HashTree.ofLevels (.ofBytes (tableOfThree true))
      (Sha256.digest ((hashTable true 2 [1, 2, 3]).zeroExtend 128)) [⟨0, 64, 128⟩, ⟨64, 3, 2⟩] policy) 2
        [1, 2, 3] := by
  have table : (hashTable true 2 [1, 2, 3]).length = 64 := length_hashTable (by decide)
  constructor
  · obtain ⟨tableRead, dataRead, reached⟩ := read_tableOfThree false
    exact (honest_accepted reached (.head _) [1, 2, 3]).1 ⟨0, 64⟩ ⟨64, 3⟩ 2 (by decide) dataRead tableRead
  · obtain ⟨tableRead, dataRead, reached⟩ := read_tableOfThree true
    refine (honest_accepted reached (.head _) [1, 2, 3]).2 ⟨0, 64, 128⟩ [⟨64, 3, 2⟩] (by decide)
      ⟨tableRead, dataRead, trivial⟩ ?_
    exact table.le.trans (by decide)

end SealedContent
