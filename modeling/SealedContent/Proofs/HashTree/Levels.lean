import SealedContent.Proofs.HashTree.Image
import SealedContent.Proofs.Storage.Reads

/-! # The levels of an open tree

`OpenTree` is a tree that was opened over a section, in a workspace that was reached since. When all of
the section can be read, each level checks its data against the level above as the `HashImage` of the
section says: `OpenTree.levelAt`. A read of a level under the failing policy gives the bytes of the
range if the blocks that it touches are trusted, and names a fault otherwise: `read_fails_at_fault`.
-/

namespace SealedContent

/-! ## Open trees -/

/-- A tree that was opened over a section, in a workspace that was reached from there. -/
inductive OpenTreeOf (admits : StorageCipher → Nat → Prop) (content : Storage) (master : Bytes)
    (placements : List HashPlacement) (padded : Bool) (policy : Policy) (tree : HashTree) (w : Workspace) : Prop where
  | opened {before : Workspace} (reached : Workspace.StepsOf admits {} before) (member : content ∈ before.nodes)
      (short : master.length < UInt64.size)
      (made : (HashTree.make content master placements padded policy).result before.session = .ok tree)
      (used : Workspace.StepsOf admits
        ((before.left (HashTree.make content master placements padded policy)).addTree tree) w)

/-- A tree in a workspace where all positions and sector numbers have 64 bits. -/
abbrev OpenTree : Storage → Bytes → List HashPlacement → Bool → Policy → HashTree → Workspace → Prop :=
  OpenTreeOf StorageCipher.Fits

section

variable {admits : StorageCipher → Nat → Prop} {content : Storage} {master : Bytes} {placements : List HashPlacement}
  {padded : Bool} {policy : Policy} {tree : HashTree} {w : Workspace}

namespace OpenTreeOf

theorem sound : OpenTreeOf admits content master placements padded policy tree w → w.Sound
  | opened reached member short made used =>
    used.sound (Workspace.sound_of_steps (reached.step (.tree member short made)))

theorem content_mem : OpenTreeOf admits content master placements padded policy tree w → content ∈ w.nodes
  | opened _ member _ _ used => used.nodes_subset _ (List.mem_append_right _ member)

theorem nodes_mem : OpenTreeOf admits content master placements padded policy tree w →
    ∀ level ∈ tree.levels, ∀ node ∈ level.nodes, node ∈ w.nodes
  | opened _ _ _ _ used => fun level member _ nodeMember =>
    used.nodes_subset _ (List.mem_append_left _ (List.mem_flatMap.mpr ⟨level, member, nodeMember⟩))

theorem storage_mem (opened : OpenTreeOf admits content master placements padded policy tree w) :
    tree.storage ∈ w.nodes :=
  opened.nodes_mem tree.dataLevel (List.getLast_mem tree.nonempty) _
    (by simp [HashLevel.nodes, HashTree.storage])

theorem chain : OpenTreeOf admits content master placements padded policy tree w →
    LevelChain content policy padded 1 (.ofBytes master) placements tree.levels
  | opened _ _ _ made _ => levelChain_of_make made

end OpenTreeOf

theorem OpenTree.content_fits : OpenTree content master placements padded policy tree w → content.Fits
  | .opened reached member _ _ _ => Workspace.fits_of_steps reached content member

end

/-! ## One level -/

variable {image : HashImage} {policy : Policy} {number : Nat}

/-- What reads of a level give: under the failing policy a range with a byte in a block that is not
    trusted fails where the path of such a block breaks, and all others give the bytes of the level. -/
structure LevelReads (image : HashImage) (policy : Policy) (number : Nat) (storage : Storage) : Prop where
  size : storage.size = (image.level number).length
  ok : ∀ {offset length}, 0 < length → offset + length ≤ (image.level number).length →
    (policy = .fail → ∀ block, image.Touches number offset length block → image.Trusted block) →
    storage.outcome offset length = .ok ((image.level number).window offset length)
  fault : ∀ {offset length}, 0 < length → offset + length ≤ (image.level number).length →
    policy = .fail →
    (¬ ∀ block, image.Touches number offset length block → image.Trusted block) →
    ∃ block fault, image.Touches number offset length block ∧ image.Fault block fault ∧
      storage.outcome offset length = .error (.integrity fault.level fault.index)

/-- A level whose data are the bytes of the image, and whose hashes are the level above. -/
structure LevelAt (image : HashImage) (policy : Policy) (number : Nat) (level : HashLevel) : Prop where
  check : level.check = ⟨image.blockSize (number + 1), number + 1, policy, image.padded⟩
  positive : 0 < image.blockSize (number + 1)
  size : level.data.size = (image.level (number + 1)).length
  entries : ((image.level (number + 1)).length + (image.blockSize (number + 1) - 1)) /
    image.blockSize (number + 1) * Sha256.size ≤ (image.level number).length
  data : ∀ {offset length}, 0 < length → offset + length ≤ (image.level (number + 1)).length →
    level.data.outcome offset length = .ok ((image.level (number + 1)).window offset length)
  hashes : LevelReads image policy number level.hashes

namespace LevelAt

variable {level : HashLevel} {index : Nat}

theorem entry_le (placed : LevelAt image policy number level)
    (inside : index * image.blockSize (number + 1) < (image.level (number + 1)).length) :
    index * Sha256.size + Sha256.size ≤ (image.level number).length := by
  have below := (HashImage.lt_blockCount_iff placed.positive).mpr inside
  have enough := Nat.le_trans (Nat.mul_le_mul_right Sha256.size below) placed.entries
  rwa [Nat.succ_mul] at enough

theorem bytes_outcome (placed : LevelAt image policy number level)
    (inside : index * image.blockSize (number + 1) < (image.level (number + 1)).length) :
    level.data.outcome (index * level.check.blockSize)
      (blockLength level.data.size level.check.blockSize index) =
        .ok (image.bytes ⟨number + 1, index⟩) := by
  have positive := placed.positive
  rw [placed.check, placed.size]
  apply placed.data
  · unfold blockLength; dsimp only; omega
  · unfold blockLength; dsimp only; omega

theorem verdict_eq (placed : LevelAt image policy number level) :
    level.check.verdict (image.bytes ⟨number + 1, index⟩) (image.entry ⟨number + 1, index⟩) =
      image.verdict ⟨number + 1, index⟩ := by
  rw [BlockCheck.verdict_eq, placed.check]
  rfl

/-- A block under trusted ones gets its verdict. -/
theorem judge_ok (placed : LevelAt image policy number level)
    (inside : index * image.blockSize (number + 1) < (image.level (number + 1)).length)
    (trusted : policy = .fail →
      ∀ upper, image.HoldsEntry ⟨number + 1, index⟩ upper → image.Trusted upper) :
    level.check.judge level.data.size level.data.outcome level.hashes.outcome index =
      .ok (image.bytes ⟨number + 1, index⟩, image.verdict ⟨number + 1, index⟩) := by
  have entry : level.hashes.outcome (index * Sha256.size) Sha256.size =
      .ok (image.entry ⟨number + 1, index⟩) :=
    placed.hashes.ok (by decide) (placed.entry_le inside) trusted
  simp only [BlockCheck.judge]
  rw [placed.bytes_outcome inside, entry, ← placed.verdict_eq]
  rfl

/-- The entry of a block cannot be read where a path above the block breaks. -/
theorem judge_fault (placed : LevelAt image policy number level)
    (inside : index * image.blockSize (number + 1) < (image.level (number + 1)).length)
    (failing : policy = .fail)
    (distrusted : ¬ ∀ upper, image.HoldsEntry ⟨number + 1, index⟩ upper → image.Trusted upper) :
    ∃ upper fault, image.HoldsEntry ⟨number + 1, index⟩ upper ∧ image.Fault upper fault ∧
      level.check.judge level.data.size level.data.outcome level.hashes.outcome index =
        .error (.integrity fault.level fault.index) := by
  obtain ⟨upper, fault, holds, found, refused⟩ :=
    placed.hashes.fault (by decide) (placed.entry_le inside) failing distrusted
  refine ⟨upper, fault, holds, found, ?_⟩
  simp only [BlockCheck.judge]
  rw [placed.bytes_outcome inside, refused]
  rfl

theorem accept_ok (placed : LevelAt image policy number level)
    (inside : index * image.blockSize (number + 1) < (image.level (number + 1)).length)
    (trusted : policy = .fail → image.Trusted ⟨number + 1, index⟩) :
    level.check.accept level.data.size level.data.outcome level.hashes.outcome index =
      .ok (image.bytes ⟨number + 1, index⟩) := by
  have above := fun failing => (HashImage.trusted_iff.mp (trusted failing)).2
  have passes : ¬ (image.verdict ⟨number + 1, index⟩ = .invalid ∧ level.check.policy = .fail) := by
    rw [placed.check]
    rintro ⟨invalid, failing⟩
    have matching := (HashImage.trusted_iff.mp (trusted failing)).1
    simp [HashImage.verdict, matching] at invalid
  simp only [BlockCheck.accept, BlockCheck.refuse]
  rw [placed.judge_ok inside above]
  simp only [bind, Except.bind, if_neg passes]
  rfl

theorem accept_fault (placed : LevelAt image policy number level)
    (inside : index * image.blockSize (number + 1) < (image.level (number + 1)).length)
    (failing : policy = .fail)
    (distrusted : ¬ image.Trusted ⟨number + 1, index⟩) :
    ∃ fault, image.Fault ⟨number + 1, index⟩ fault ∧
      level.check.accept level.data.size level.data.outcome level.hashes.outcome index =
        .error (.integrity fault.level fault.index) := by
  simp only [BlockCheck.accept, BlockCheck.refuse]
  by_cases above : ∀ upper, image.HoldsEntry ⟨number + 1, index⟩ upper → image.Trusted upper
  · -- the path breaks at the block itself
    have mismatch : ¬ image.Matches ⟨number + 1, index⟩ :=
      fun matching => distrusted (HashImage.trusted_iff.mpr ⟨matching, above⟩)
    refine ⟨⟨number + 1, index⟩, HashImage.fault_self mismatch above, ?_⟩
    rw [placed.judge_ok inside fun _ => above]
    simp [bind, Except.bind, HashImage.verdict, mismatch, placed.check, failing]
  -- it breaks above, where the entry is read
  · obtain ⟨upper, fault, holds, found, refused⟩ := placed.judge_fault inside failing above
    refine ⟨fault, found.up holds, ?_⟩
    rw [refused]
    rfl

theorem touched_inside (placed : LevelAt image policy number level) {offset length : Nat}
    (nonempty : 0 < length)
    (inside : offset + length ≤ (image.level (number + 1)).length)
    (touched : index ∈ touchedBlocks (image.blockSize (number + 1)) offset length) :
    index * image.blockSize (number + 1) < (image.level (number + 1)).length ∧
      image.Touches (number + 1) offset length ⟨number + 1, index⟩ := by
  obtain ⟨start, stop⟩ := (ByteMap.mem_touchedBlocks placed.positive nonempty).mp touched
  exact ⟨by omega, rfl, start, stop⟩

/-- A level is read as its blocks are checked. -/
theorem reads (placed : LevelAt image policy number level) :
    LevelReads image policy (number + 1) level.storage where
  size := placed.size
  ok {offset length} nonempty inside trusted := by
    show ranged level.data.size offset length (verifiedOutcome level.check _ _ _ offset length) = _
    simp only [ranged, verifiedOutcome]
    rw [if_neg (by rw [placed.size]; omega), if_neg (by omega)]
    split
    · exact placed.data nonempty inside
    · have blocks : (touchedBlocks level.check.blockSize offset length).mapM (level.check.accept
          level.data.size (fun o n => level.data.outcome o n) (fun o n => level.hashes.outcome o n)) =
          .ok ((touchedBlocks level.check.blockSize offset length).map fun index =>
            image.bytes ⟨number + 1, index⟩) := by
        apply mapM_ok
        intro index touched
        rw [placed.check] at touched
        obtain ⟨there, touches⟩ := placed.touched_inside nonempty inside touched
        exact placed.accept_ok there fun failing => trusted failing _ touches
      rw [blocks, placed.check]
      exact congrArg Except.ok (ByteMap.cutRange_windows placed.positive nonempty inside)
  fault {offset length} nonempty inside failing distrusted := by
    -- blocks are accepted in order, so the first one that is refused decides
    have refuses : ∃ index ∈ touchedBlocks level.check.blockSize offset length, ∃ error,
        level.check.accept level.data.size level.data.outcome level.hashes.outcome index = .error error := by
      push Not at distrusted
      obtain ⟨⟨_, index⟩, ⟨rfl, start, stop⟩, distrusted⟩ := distrusted
      have touched := (ByteMap.mem_touchedBlocks placed.positive nonempty).mpr ⟨start, stop⟩
      dsimp only at start
      obtain ⟨fault, -, refused⟩ := placed.accept_fault (by omega) failing distrusted
      exact ⟨index, by rw [placed.check]; exact touched, _, refused⟩
    obtain ⟨index, touched, error, refused, stops⟩ := mapM_error refuses
    rw [placed.check] at touched
    obtain ⟨there, touches⟩ := placed.touched_inside nonempty inside touched
    have distrusted : ¬ image.Trusted ⟨number + 1, index⟩ := by
      intro trusted
      rw [placed.accept_ok there fun _ => trusted] at refused
      cases refused
    obtain ⟨fault, found, gives⟩ := placed.accept_fault there failing distrusted
    refine ⟨⟨number + 1, index⟩, fault, touches, found, ?_⟩
    show ranged level.data.size offset length (verifiedOutcome level.check _ _ _ offset length) = _
    simp only [ranged, verifiedOutcome]
    rw [if_neg (by rw [placed.size]; omega), if_neg (by omega), if_neg (by simp [placed.check, failing]),
      stops]
    exact refused.symm.trans gives

end LevelAt

/-! ## All levels -/

theorem levelReads_master (image : HashImage) (policy : Policy) :
    LevelReads image policy 0 (.ofBytes image.master) where
  size := List.size_toArray
  ok {offset length} nonempty inside _ := by
    have size : (image.master.toArray).size = image.master.length := List.size_toArray
    show ranged image.master.toArray.size offset length (pure _) =
      Except.ok (image.master.window offset length)
    simp only [ranged]
    rw [size, if_neg (show ¬ image.master.length < offset + length by exact Nat.not_lt.mpr inside),
      if_neg (by omega)]
    have bytes : (image.master.toArray.extract offset (offset + length)).toList =
        image.master.window offset length := by
      simp [Bytes.window, List.extract_eq_take_drop]
    rw [bytes]
    rfl
  fault _ _ _ distrusted := by
    refine absurd (fun block touches => ?_) distrusted
    have stop := touches.2.2
    simp [HashImage.blockSize] at stop

variable {nodes : List Storage} {content : Storage}

theorem LevelChain.levelAt (graph : Coherent nodes) (member : content ∈ nodes) (fits : content.Fits)
    (readable : content.outcome 0 content.size = .ok image.content) {first : Nat} {hashes : Storage}
    {placements : List HashPlacement} {levels : List HashLevel}
    (chain : LevelChain content policy image.padded first hashes placements levels) :
    ∀ {number : Nat}, first = number + 1 → image.placements.drop number = placements →
    (∀ level ∈ levels, ∀ node ∈ level.nodes, node ∈ nodes) →
    LevelReads image policy number hashes →
    levels.length = placements.length ∧
    ∀ (k : Nat) (level : HashLevel), levels[k]? = some level → LevelAt image policy (number + k) level := by
  induction chain with
  | nil => exact fun _ _ _ _ => ⟨rfl, fun _ _ => nofun⟩
  | @cons first hashes cell data rest levels placement windowed positive entries below inductionHypothesis =>
    rintro number rfl rest' members above
    -- the placement of this level is the next one of the image
    have dataMember : data ∈ nodes := members _ (.head _) _ (by simp [HashLevel.nodes])
    obtain ⟨long, size, inside, reads⟩ := outcome_window graph member dataMember fits readable windowed
    have placed? : image.placements[number]? = some placement := by
      rw [← List.head?_drop, rest']; rfl
    have bytes : image.level (number + 1) = image.content.window placement.offset placement.size := by
      simp [HashImage.level, placed?]
    have block : image.blockSize (number + 1) = placement.blockSize := by
      simp [HashImage.blockSize, placed?]
    have lengths : (image.level (number + 1)).length = placement.size := by
      rw [bytes, Bytes.length_window (by omega)]
    have placed : LevelAt image policy number
        ⟨cell, ⟨placement.blockSize, number + 1, policy, image.padded⟩, data, hashes⟩ := by
      refine ⟨by rw [block], by rw [block]; exact positive, by rw [lengths, size], ?_, ?_, above⟩
      · rw [lengths, block, ← size, ← above.size]
        exact entries
      · intro offset length nonempty fits
        rw [bytes]
        exact reads offset length (by omega)
    -- the levels below have this one as their hashes
    have others := @inductionHypothesis (number + 1) rfl (by rw [← List.drop_drop, rest']; rfl)
      (fun level levelMember => members level (.tail _ levelMember)) placed.reads
    refine ⟨by simp [others.1], fun k level found => ?_⟩
    cases k with
    | zero =>
      cases found
      exact placed
    | succ k =>
      have later := others.2 k level (by simpa using found)
      rwa [show number + 1 + k = number + (k + 1) by omega] at later

namespace OpenTree

variable {tree : HashTree} {w : Workspace}

/-- The bytes of the section that a tree was opened over decide what its levels are. -/
theorem levelAt (opened : OpenTree content image.master image.placements image.padded policy tree w)
    (readable : content.readAll.result w.session = .ok image.content) :
    tree.levels.length = image.placements.length ∧
      ∀ (k : Nat) (level : HashLevel), tree.levels[k]? = some level →
      LevelAt image policy k level := by
  have sound := opened.sound
  have whole : content.outcome 0 content.size = .ok image.content := by
    rw [← readable]
    exact (content.read_answers sound.graph opened.content_mem 0 content.size _ sound.remembers).1.symm
  have above := levelReads_master image policy
  obtain ⟨count, levels⟩ :=
    opened.chain.levelAt sound.graph opened.content_mem opened.content_fits whole rfl rfl opened.nodes_mem above
  exact ⟨count, fun k level found => Nat.zero_add k ▸ levels k level found⟩

/-- The verified data are the last level. -/
theorem levelReads_storage (opened : OpenTree content image.master image.placements image.padded policy tree w)
    (readable : content.readAll.result w.session = .ok image.content) :
    LevelReads image policy image.placements.length tree.storage := by
  obtain ⟨count, levels⟩ := opened.levelAt readable
  have nonempty := List.length_pos_iff.mpr tree.nonempty
  have last : tree.levels[image.placements.length - 1]? = some tree.dataLevel := by
    rw [← count, ← List.getLast?_eq_getElem?, HashTree.dataLevel, List.getLast?_eq_some_getLast]
  have reads := (levels _ _ last).reads
  rwa [show image.placements.length - 1 + 1 = image.placements.length by omega] at reads

end OpenTree

/-- Under the failing policy a read of the verified data succeeds exactly if the blocks that it touches
    are trusted. Otherwise it names the block where the path of a touched block breaks, whatever was
    read and validated before. -/
theorem read_fails_at_fault {tree : HashTree} {w : Workspace}
    (opened : OpenTree content image.master image.placements image.padded .fail tree w)
    (readable : content.readAll.result w.session = .ok image.content) {offset length : Nat}
    (nonempty : 0 < length)
    (inside : offset + length ≤ tree.storage.size) :
    ((∃ data, (tree.storage.read offset length).result w.session = .ok data) ↔
      ∀ block, image.Touches image.placements.length offset length block →
        image.Trusted block) ∧
    ∀ error, (tree.storage.read offset length).result w.session = .error error →
      ∃ block fault,
        image.Touches image.placements.length offset length block ∧
        image.Fault block fault ∧
        error = .integrity fault.level fault.index := by
  have sound := opened.sound
  have reads := opened.levelReads_storage readable
  rw [(tree.storage.read_answers sound.graph opened.storage_mem offset length _ sound.remembers).1]
  rw [reads.size] at inside
  by_cases trusted : ∀ block,
      image.Touches image.placements.length offset length block →
      image.Trusted block
  · rw [reads.ok nonempty inside fun _ => trusted]
    exact ⟨⟨fun _ => trusted, fun _ => ⟨_, rfl⟩⟩, fun _ => nofun⟩
  · obtain ⟨block, fault, touches, found, refused⟩ := reads.fault nonempty inside rfl trusted
    rw [refused]
    refine ⟨⟨?_, fun all => absurd all trusted⟩, ?_⟩
    · rintro ⟨_, ⟨⟩⟩
    · rintro error ⟨⟩
      exact ⟨block, fault, touches, found, rfl⟩

/-- Three levels of one block each. The middle one does not match its entry of zeros. -/
def brokenImage : HashImage where
  content := Bytes.zeros 32 ++ 1 :: Bytes.zeros 63
  master := Bytes.zeros 32
  placements := [⟨0, 32, 32⟩, ⟨32, 32, 32⟩, ⟨64, 32, 32⟩]
  padded := false

/-- The section of these levels. -/
def brokenSection : Storage := .ofBytes brokenImage.content

/-- One of the levels. -/
def brokenLevel (policy : Policy) (cell : Nat) (hashes : Storage) : HashLevel :=
  ⟨cell, ⟨32, cell + 1, policy, false⟩, .slice brokenSection (32 * cell) 32, hashes⟩

/-- The tree over the section. -/
def brokenTree (policy : Policy) : HashTree :=
  let first := brokenLevel policy 0 (.ofBytes brokenImage.master)
  let second := brokenLevel policy 1 first.storage
  ⟨[first, second, brokenLevel policy 2 second.storage], by simp⟩

/-- What is left when the tree was opened and its data was read. -/
def brokenWorkspace (policy : Policy) : Workspace :=
  (((Workspace.add {} brokenSection).left (HashTree.make brokenSection brokenImage.master
    brokenImage.placements brokenImage.padded policy)).addTree (brokenTree policy)).left
    ((brokenTree policy).storage.read 0 32)

theorem opened_broken {policy : Policy}
    (made : (HashTree.make brokenSection brokenImage.master brokenImage.placements brokenImage.padded
      policy).result {} = .ok (brokenTree policy)) :
    OpenTree brokenSection brokenImage.master brokenImage.placements brokenImage.padded policy
      (brokenTree policy) (brokenWorkspace policy) :=
  .opened (.step .refl (.memory (by decide))) (.head _) (by decide) made (.step .refl (.read (by
    simp [HashTree.storage, HashTree.dataLevel, brokenTree, HashTree.nodes, HashLevel.nodes,
      Workspace.addTree]) 0 32))

/-- The middle block is on the path of the data, so that none of the data can be read. -/
theorem read_fails_at_fault_broken :
    OpenTree brokenSection brokenImage.master brokenImage.placements brokenImage.padded .fail
      (brokenTree .fail) (brokenWorkspace .fail) ∧
    brokenSection.readAll.result (brokenWorkspace .fail).session = .ok brokenImage.content ∧
    0 < 32 ∧ 0 + 32 ≤ (brokenTree .fail).storage.size ∧
    ¬ ∃ data, ((brokenTree .fail).storage.read 0 32).result (brokenWorkspace .fail).session = .ok data := by
  have opened := @opened_broken .fail rfl
  have readable : brokenSection.readAll.result (brokenWorkspace .fail).session = .ok brokenImage.content := rfl
  refine ⟨opened, readable, by decide, by decide, ?_⟩
  rw [(read_fails_at_fault opened readable (by decide) (by decide)).1]
  intro trusted
  have touches : brokenImage.Touches 3 0 32 ⟨3, 0⟩ := ⟨rfl, by decide, by decide⟩
  have holds : brokenImage.HoldsEntry ⟨3, 0⟩ ⟨2, 0⟩ := ⟨rfl, by decide, by decide⟩
  have mismatch : ¬ brokenImage.Matches ⟨2, 0⟩ := by decide +kernel
  exact mismatch (trusted ⟨3, 0⟩ touches ⟨2, 0⟩ (.single holds))

end SealedContent
