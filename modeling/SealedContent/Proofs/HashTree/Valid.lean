import SealedContent.Proofs.HashTree.Validation
import SealedContent.Proofs.Storage.Runs

/-! # Trees that are valid throughout

`ValidLevels` says of a section alone that the levels of a layout stand in it and that each of their blocks can be
read and matches its hash. A tree over such a section opens under every policy, and its data are the last level:
`ValidLevels.make_ok`, `ValidLevels.exists_data`. A tree that is found valid has such a section below it, although the
hashes of its levels were read through the tree itself: `LevelChain.validLevels`.
-/

namespace SealedContent

open ByteMap (window?_eq_some_iff isSome_window?_iff)

/-! ## Blocks -/

/-- Every block can be read and matches its hash. -/
def ValidBlocks (check : BlockCheck) (size : Nat) (data hashes : ByteMap) : Prop :=
  ∀ index, index * check.blockSize < size → ∃ bytes hash,
    data.window? (index * check.blockSize) (blockLength size check.blockSize index) = some bytes ∧
    hashes.window? (index * Sha256.size) Sha256.size = some hash ∧ check.verdict bytes hash = .valid

namespace ValidBlocks

variable {check other : BlockCheck} {size : Nat} {data hashes : ByteMap}

/-- The number of the level and its policy play no part. -/
theorem congr (valid : ValidBlocks check size data hashes) (blockSize : check.blockSize = other.blockSize)
    (padded : check.padded = other.padded) : ValidBlocks other size data hashes := by
  have verdict : ∀ bytes hash, check.verdict bytes hash = other.verdict bytes hash := by
    intro bytes hash
    rw [check.verdict_eq, other.verdict_eq, blockSize, padded]
  intro index inside
  rw [← blockSize] at inside ⊢
  simpa only [verdict] using valid index inside

theorem isSome (valid : ValidBlocks check size data hashes) (positive : 0 < check.blockSize) {position : Nat}
    (inside : position < size) : (data position).isSome := by
  have division := Nat.div_add_mod' position check.blockSize
  have remainder := Nat.mod_lt position positive
  obtain ⟨bytes, hash, found, -⟩ := valid (position / check.blockSize) (by omega)
  have all := isSome_window?_iff.mp (Option.isSome_of_eq_some found) (position % check.blockSize)
    (by simp only [blockLength]; omega)
  rwa [division] at all

/-- No policy keeps anything back. -/
theorem verified_eq (valid : ValidBlocks check size data hashes)
    (outside : ∀ position, size ≤ position → data position = none) :
    ByteMap.verified check size data hashes = data := by
  funext position
  simp only [ByteMap.verified]
  split
  · rfl
  by_cases inside : position < size
  · have division := Nat.div_mul_le_self position check.blockSize
    obtain ⟨bytes, hash, found, entry, verdict⟩ := valid (position / check.blockSize) (by omega)
    rw [if_pos]
    simp [ByteMap.accepted?, found, entry, verdict]
  · rw [outside position (by omega), ite_self]

/-- A block of its own under its hash. -/
theorem single {node above : Storage} {bytes : Bytes} (whole : bytes.length = check.blockSize)
    (holds : node.Holds bytes) (aboveHolds : above.Holds (Sha256.digest bytes)) :
    ValidBlocks check node.size node.byte? above.byte? := by
  intro index inside
  rw [holds.size, whole] at inside
  have first : index = 0 := by
    by_contra later
    have := Nat.le_mul_of_pos_left check.blockSize (Nat.pos_of_ne_zero later)
    omega
  subst first
  have full : hashedBytes check.padded check.blockSize bytes = bytes := by
    simp [hashedBytes, Bytes.zeroExtend, Bytes.zeros, whole]
  refine ⟨bytes, Sha256.digest bytes, ?_, ?_, ?_⟩
  · rw [holds.map_eq, holds.size, blockLength, Nat.zero_mul, whole, Nat.sub_zero, Nat.min_self, ← whole,
      ByteMap.window?_getElem? (by omega), Bytes.window_all]
  · have long : (Sha256.digest bytes).length = Sha256.size := Sha256.length_digest bytes
    rw [aboveHolds.map_eq, Nat.zero_mul, ← long, ByteMap.window?_getElem? (by omega), Bytes.window_all]
  · rw [check.verdict_eq, full, if_pos (.inr rfl)]

end ValidBlocks

/-- The verdict on a block, from what its bytes and its entry are. -/
theorem BlockCheck.judge_eq_ok_iff {check : BlockCheck} {size index dataSize hashSize : Nat}
    {data hashes : Fetch (Except Error)} {dataMap hashMap : ByteMap} (fromData : Serves False data dataMap dataSize)
    (fromHashes : Serves False hashes hashMap hashSize) (nonempty : 0 < blockLength size check.blockSize index)
    {bytes : Bytes} {verdict : Validity} : check.judge size data hashes index = .ok (bytes, verdict) ↔
      dataMap.window? (index * check.blockSize) (blockLength size check.blockSize index) = some bytes ∧
      ∃ hash, hashMap.window? (index * Sha256.size) Sha256.size = some hash ∧ check.verdict bytes hash = verdict := by
  rw [← (fromData.served nonempty).eq, ← (fromHashes.served (show 0 < Sha256.size by decide)).eq, BlockCheck.judge]
  simp only [toOption_eq_some_iff]
  constructor
  · intro gives
    obtain ⟨block, found, gives⟩ := ok_of_bind gives
    obtain ⟨hash, entry, gives⟩ := ok_of_bind gives
    cases gives
    exact ⟨found, hash, entry, rfl⟩
  · rintro ⟨found, hash, entry, rfl⟩
    rw [found, ok_bind, entry]
    rfl

/-! ## Verdicts on many blocks -/

theorem mergeAll_mapM_eq_valid_iff {α : Type} {action : α → Except Error Validity} {items : List α} :
    (do return Validity.mergeAll (← items.mapM action) : Except Error Validity) = .ok .valid ↔
      ∀ item ∈ items, action item = .ok .valid := by
  have forward : ∀ {items verdicts}, List.Forall₂ (fun item verdict => action item = .ok verdict) items verdicts →
      (∀ verdict ∈ verdicts, verdict = .valid) → ∀ item ∈ items, action item = .ok .valid := by
    intro items verdicts each valid
    induction each with
    | nil => exact List.forall_mem_nil _
    | cons found _ inductionHypothesis =>
      obtain ⟨here, later⟩ := List.forall_mem_cons.mp valid
      exact List.forall_mem_cons.mpr ⟨here ▸ found, inductionHypothesis later⟩
  constructor
  · intro gives
    obtain ⟨verdicts, each, gives⟩ := ok_of_bind gives
    exact forward (mapM_eq_ok_iff.mp each) (Validity.mergeAll_eq_valid_iff.mp (Except.ok.inj gives))
  · intro each
    rw [mapM_ok each, ok_bind]
    refine congrArg Except.ok (Validity.mergeAll_eq_valid_iff.mpr fun verdict member => ?_)
    obtain ⟨_, -, same⟩ := List.mem_map.mp member
    exact same.symm

variable {nodes : List Storage}

/-- A level is found valid exactly if all of its blocks are. -/
theorem HashLevel.validation_eq_valid_iff (graph : Coherent nodes) {level : HashLevel}
    (member : level.storage ∈ nodes) (fits : level.storage.Fits) : level.validation = .ok .valid ↔
      ValidBlocks level.check level.data.size level.data.byte? level.hashes.byte? := by
  have below := graph.closed _ member
  have fromData : Serves False _ _ _ :=
    level.data.serves graph (below _ (by simp [storage, Storage.children])) (.inr fits.1)
  have fromHashes : Serves False _ _ _ :=
    level.hashes.serves graph (below _ (by simp [storage, Storage.children])) (.inr fits.2)
  have positive : 0 < level.check.blockSize := (graph.wellMade _ member).1
  have counted : ∀ index, index ∈ List.range level.blockCount ↔ index * level.check.blockSize < level.data.size := by
    intro index
    rw [List.mem_range]
    exact HashImage.lt_blockCount_iff positive
  refine mergeAll_mapM_eq_valid_iff.trans (forall_congr' fun index => ?_)
  rw [counted]
  refine imp_congr_right fun inside => ?_
  have nonempty : 0 < blockLength level.data.size level.check.blockSize index := by
    simp only [blockLength]
    omega
  constructor
  · intro gives
    obtain ⟨⟨bytes, verdict⟩, judged, gives⟩ := ok_of_bind gives
    cases gives
    obtain ⟨found, hash, entry, verdict⟩ := (BlockCheck.judge_eq_ok_iff fromData fromHashes nonempty).mp judged
    exact ⟨bytes, hash, found, entry, verdict⟩
  · rintro ⟨bytes, hash, found, entry, verdict⟩
    rw [(BlockCheck.judge_eq_ok_iff fromData fromHashes nonempty).mpr ⟨found, hash, entry, verdict⟩]
    rfl

theorem HashTree.validation_eq_valid_iff {tree : HashTree} :
    tree.validation = .ok .valid ↔ ∀ level ∈ tree.levels, level.validation = .ok .valid :=
  mergeAll_mapM_eq_valid_iff

/-! ## Levels of a section -/

/-- The levels of a layout stand in a section, under some hashes, and all of their blocks are valid. -/
inductive ValidLevels (content : Storage) (padded : Bool) : (hashes : Storage) → List HashPlacement → Prop where
  | nil {hashes} : ValidLevels content padded hashes []
  | cons {hashes data rest} {placement : HashPlacement}
      (windowed : content.window placement.offset placement.size = .ok data)
      (positive : 0 < placement.blockSize)
      (enough : (data.size + (placement.blockSize - 1)) / placement.blockSize * Sha256.size ≤ hashes.size)
      (valid : ValidBlocks ⟨placement.blockSize, 0, .off, padded⟩ data.size data.byte? hashes.byte?)
      (below : ValidLevels content padded data rest) : ValidLevels content padded hashes (placement :: rest)

theorem window_outside {node cut : Storage} {start size : Nat} (made : node.window start size = .ok cut) :
    ∀ position, cut.size ≤ position → cut.byte? position = none := by
  intro position outside
  rw [(size_window made).1] at outside
  rw [byte?_window made, if_neg (by omega)]

variable {content plan hashes top : Storage} {policy : Policy} {padded : Bool} {number : Nat}
  {placements : List HashPlacement} {levels : List HashLevel}

/-- The levels of a tree that are all found valid are those of the section. -/
theorem LevelChain.validLevels (chain : LevelChain content policy padded number hashes placements levels)
    (contents : content.Alike plan) (above : hashes.Alike top) (fits : content.Fits) (hashesFit : hashes.Fits)
    (valid : ∀ level ∈ levels, ValidBlocks level.check level.data.size level.data.byte? level.hashes.byte?) :
    ValidLevels plan padded top placements := by
  induction chain generalizing top with
  | nil => exact .nil
  | @cons number hashes cell data rest levels placement windowed positive enough below inductionHypothesis =>
    obtain ⟨here, others⟩ := List.forall_mem_cons.mp valid
    obtain ⟨cut, planned⟩ : ∃ cut, plan.window placement.offset placement.size = .ok cut :=
      window_ok (by rw [← contents.size]; exact (size_window windowed).2)
    have same : data.Alike cut := contents.window windowed planned
    have stated : ValidBlocks ⟨placement.blockSize, 0, .off, padded⟩ data.size data.byte? hashes.byte? :=
      here.congr rfl rfl
    rw [same.size, same.byte, above.byte] at stated
    rw [same.size, above.size] at enough
    -- what the next level reads as its hashes are the bytes of this one, as they stand in the section
    have clear : (Storage.verified cell ⟨placement.blockSize, number, policy, padded⟩ data hashes).Alike cut :=
      ⟨same.size, (here.verified_eq (window_outside windowed)).trans same.byte,
        (and_iff_left hashesFit).trans same.fits⟩
    have levelFits := (Storage.fits_window windowed).mpr fits
    exact .cons planned positive enough stated (inductionHypothesis clear ⟨levelFits, hashesFit⟩ others)

namespace ValidLevels

/-- Every level of a tree over the section is valid, under every policy. -/
theorem validBlocks (levelsValid : ValidLevels plan padded top placements)
    (chain : LevelChain content policy padded number hashes placements levels) (contents : content.Alike plan)
    (above : hashes.Alike top) (fits : content.Fits) (hashesFit : hashes.Fits) :
    ∀ level ∈ levels, ValidBlocks level.check level.data.size level.data.byte? level.hashes.byte? := by
  induction chain generalizing top with
  | nil => exact List.forall_mem_nil _
  | @cons number hashes cell data rest levels placement windowed positive enough below inductionHypothesis =>
    cases levelsValid with
    | cons planned _ _ valid belowValid =>
      have same := contents.window windowed planned
      rw [← same.size, ← same.byte, ← above.byte] at valid
      have here : ValidBlocks ⟨placement.blockSize, number, policy, padded⟩ data.size data.byte? hashes.byte? :=
        valid.congr rfl rfl
      have clear : (Storage.verified cell ⟨placement.blockSize, number, policy, padded⟩ data hashes).Alike _ :=
        ⟨same.size, (here.verified_eq (window_outside windowed)).trans same.byte,
          (and_iff_left hashesFit).trans same.fits⟩
      have levelFits := (Storage.fits_window windowed).mpr fits
      exact List.forall_mem_cons.mpr ⟨here, inductionHypothesis belowValid clear ⟨levelFits, hashesFit⟩⟩

/-- The levels of a tree are made in any session. -/
theorem chain_ok (levelsValid : ValidLevels plan padded top placements) (contents : content.size = plan.size)
    (above : hashes.size = top.size) (policy : Policy) (number : Nat) (session : Session) : ∃ levels,
      (HashTree.chain content policy padded number hashes placements).result session = .ok levels := by
  induction levelsValid generalizing hashes number session with
  | nil => exact ⟨[], rfl⟩
  | @cons top cut rest placement planned positive enough valid below inductionHypothesis =>
    obtain ⟨size, inside⟩ := size_window planned
    obtain ⟨data, windowed⟩ : ∃ data, content.window placement.offset placement.size = .ok data :=
      window_ok (by rwa [contents])
    have same : data.size = cut.size := (size_window windowed).1.trans size.symm
    obtain ⟨level, made, long⟩ : ∃ level,
        (HashLevel.make data hashes ⟨placement.blockSize, number, policy, padded⟩).result session = .ok level ∧
          level.storage.size = cut.size := by
      simp only [HashLevel.make]
      rw [if_neg (by omega), if_neg (by rw [same, above]; omega)]
      exact ⟨_, rfl, same⟩
    obtain ⟨levels, gives⟩ := inductionHypothesis long (number + 1)
      ((HashLevel.make data hashes ⟨placement.blockSize, number, policy, padded⟩).after session)
    refine ⟨level :: levels, ?_⟩
    simp only [HashTree.chain]
    rw [windowed, SessionM.lift_ok_bind, SessionM.result_bind_ok made, SessionM.result_bind_ok gives]
    rfl

/-- A tree over the section opens under every policy, whatever was done before. -/
theorem make_ok {w : Workspace} (sound : w.Sound) (member : content ∈ w.nodes) (fits : content.Fits) {master : Bytes}
    (short : master.length < UInt64.size) (levelsValid : ValidLevels plan padded (.ofBytes master) placements)
    (contents : content.Alike plan) (nonempty : placements ≠ []) (policy : Policy) :
    ∃ tree, (HashTree.make content master placements padded policy).result w.session = .ok tree := by
  obtain ⟨levels, gives⟩ := levelsValid.chain_ok contents.size rfl policy 1 w.session
  have masterStep : Workspace.Step w (w.add (.ofBytes master)) := .ofBytes short
  have built := @Workspace.Sound.chain content policy padded placements _ 1 _ (masterStep.sound sound)
    (.tail _ member) (.head _)
  rw [Workspace.session_add, gives] at built
  have chain := levelChain_of_chain placements gives
  have valid := levelsValid.validBlocks chain contents (.refl _) fits trivial
  have levelsFit := Workspace.fits_of_levelChain chain fits trivial
  cases levels with
  | nil =>
    cases chain
    exact absurd rfl nonempty
  | cons first rest =>
    have listed : first.storage ∈ (first :: rest).flatMap HashLevel.nodes :=
      List.mem_flatMap.mpr ⟨first, .head _, by simp [HashLevel.nodes]⟩
    have firstMember : first.storage ∈ (first :: rest).flatMap HashLevel.nodes ++ (w.add (.ofBytes master)).nodes :=
      List.mem_append_left _ listed
    -- the first level is checked at once, and found valid
    have found := (first.validate_answers built.graph firstMember _ built.remembers).1
    rw [(HashLevel.validation_eq_valid_iff built.graph firstMember (levelsFit _ listed)).mpr
      (valid first (.head _))] at found
    have opened : (HashTree.openLevel first).result
        ((HashTree.chain content policy padded 1 (.ofBytes master) placements).after w.session) = .ok () := by
      rw [HashTree.openLevel, SessionM.result_bind_ok found]
      rfl
    simp only [HashTree.make]
    rw [SessionM.result_bind_ok gives]
    dsimp only
    split
    · rw [SessionM.result_bind_ok opened]
      exact ⟨_, rfl⟩
    · exact ⟨_, rfl⟩

/-- All of the last level can be read. -/
theorem exists_data (levelsValid : ValidLevels plan padded top placements) (fits : plan.Fits) {last : HashPlacement}
    (found : placements.getLast? = some last) :
    ∃ data bytes, plan.window last.offset last.size = .ok data ∧ data.Holds bytes := by
  induction levelsValid with
  | nil => cases found
  | @cons top data rest placement planned positive enough valid below inductionHypothesis =>
    cases below with
    | nil =>
      cases found
      have all : (data.byte?.window? 0 data.size).isSome :=
        isSome_window?_iff.mpr fun position inside => valid.isSome positive (by rwa [Nat.zero_add])
      obtain ⟨bytes, whole⟩ := Option.isSome_iff_exists.mp all
      obtain ⟨long, each⟩ := window?_eq_some_iff.mp whole
      refine ⟨data, bytes, planned, long.symm, fun position => ?_, (Storage.fits_window planned).mpr fits⟩
      by_cases inside : position < data.size
      · have here := each position inside
        rwa [Nat.zero_add] at here
      · rw [window_outside planned position (by omega), List.getElem?_eq_none (by omega)]
    | cons =>
      rw [List.getLast?_cons_cons] at found
      exact inductionHypothesis found

end ValidLevels

/-- The last level of a tree lies where the last level of the layout does. -/
theorem LevelChain.window_last (chain : LevelChain content policy padded number hashes placements levels)
    {level : HashLevel} (found : levels.getLast? = some level) :
    ∃ last, placements.getLast? = some last ∧ content.window last.offset last.size = .ok level.data := by
  induction chain with
  | nil => cases found
  | @cons number hashes cell data rest levels placement windowed positive enough below inductionHypothesis =>
    cases below with
    | nil =>
      cases found
      exact ⟨placement, rfl, windowed⟩
    | cons =>
      rw [List.getLast?_cons_cons] at found ⊢
      exact inductionHypothesis found

theorem LevelChain.data_alike {tree : HashTree}
    (chain : LevelChain content policy padded number hashes placements tree.levels) (contents : content.Alike plan) :
    ∃ last data, placements.getLast? = some last ∧ plan.window last.offset last.size = .ok data ∧
      tree.dataLevel.data.Alike data := by
  have present : tree.levels.getLast? = some tree.dataLevel := List.getLast?_eq_some_getLast _
  obtain ⟨last, found, windowed⟩ := chain.window_last present
  obtain ⟨data, planned⟩ : ∃ data, plan.window last.offset last.size = .ok data :=
    window_ok (by rw [← contents.size]; exact (size_window windowed).2)
  exact ⟨last, data, found, planned, contents.window windowed planned⟩

/-- A checked level has no other bytes than its data. -/
theorem HashLevel.byte?_storage {level : HashLevel} {position : Nat} {byte : UInt8}
    (present : level.storage.byte? position = some byte) : level.data.byte? position = some byte := by
  have checked : ByteMap.verified level.check level.data.size level.data.byte? level.hashes.byte? position =
      some byte := present
  simp only [ByteMap.verified] at checked
  split at checked
  · exact checked
  · split at checked
    · exact checked
    · cases checked

end SealedContent
