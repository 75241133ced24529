import SealedContent.Proofs.HashTree.Validation
import SealedContent.Proofs.Storage.Lasting
import SealedContent.Proofs.Storage.Preserved
import SealedContent.Proofs.Storage.Raw

/-! # Recorded verdicts

What a level has recorded on a block is what its bytes and its hash say, whatever checks these passed themselves
(`HashLevel.recorded`), it lasts (`HashLevel.recorded_lasting`), and there are no records behind the last block
(`HashLevel.fitting`), so that all of them together are the verdict on the level: `block_verdicts`.
-/

namespace SealedContent

open Workspace (Steps StepsOf)
open Storage (verified)

/-! ## Verdicts together -/

namespace Validity

theorem merge_eq_or (first second : Validity) : merge first second = first ∨ merge first second = second := by
  simp only [merge]
  split
  · exact .inr rfl
  · exact .inl rfl

theorem mergeAll_eq_valid_or_mem (outcomes : List Validity) :
    mergeAll outcomes = valid ∨ mergeAll outcomes ∈ outcomes := by
  induction outcomes with
  | nil => exact .inl rfl
  | cons first rest inductionHypothesis =>
    rw [mergeAll_cons]
    obtain same | same := merge_eq_or first (mergeAll rest)
    · rw [same]
      exact .inr (.head _)
    · rw [same]
      exact inductionHypothesis.imp_right (.tail _)

theorem mergeAll_append (early late : List Validity) :
    mergeAll (early ++ late) = merge (mergeAll early) (mergeAll late) := by
  rw [mergeAll, List.foldl_append, foldl_merge]
  rfl

theorem mergeAll_unchecked {count : Nat} (some : 0 < count) :
    mergeAll (List.replicate count unchecked) = unchecked := by
  obtain none | member := mergeAll_eq_valid_or_mem (List.replicate count unchecked)
  · have all := mergeAll_eq_valid_iff.mp none unchecked (List.mem_replicate.mpr ⟨by omega, rfl⟩)
    cases all
  · exact (List.mem_replicate.mp member).2

end Validity

/-! ## The table of a level -/

namespace Verdicts

theorem size_record (verdicts : Verdicts) (block : Nat) (new : Validity) :
    (verdicts.record block new).size = max verdicts.size (block + 1) := by
  simp only [record, Array.size_setIfInBounds, Array.size_append, Array.size_replicate]
  omega

theorem lt_size_of_verdict {verdicts : Verdicts} {block : Nat} (recorded : verdicts.verdict block ≠ .unchecked) :
    block < verdicts.size := by
  by_contra behind
  refine recorded ?_
  rw [verdict, Array.getD_eq_getD_getElem?, Array.getElem?_eq_none (by omega)]
  rfl

/-- The table, and nothing for the blocks behind it. -/
theorem map_verdict (verdicts : Verdicts) {count : Nat} (inside : verdicts.size ≤ count) :
    (List.range count).map verdicts.verdict =
      verdicts.toList ++ List.replicate (count - verdicts.size) .unchecked := by
  refine List.ext_getElem (by simp; omega) fun block here there => ?_
  simp only [List.getElem_map, List.getElem_range, List.getElem_append, Array.length_toList, verdict,
    Array.getD_eq_getD_getElem?]
  split
  · next recorded => simp [recorded]
  · next behind => simp [Array.getElem?_eq_none (Nat.le_of_not_lt behind)]

end Verdicts

theorem Session.size_verdictsOf_record (session : Session) (cell block : Nat) (new : Validity) :
    ((session.record cell block new).verdictsOf cell).size ≤ max (session.verdictsOf cell).size (block + 1) := by
  by_cases made : cell < session.verdicts.size
  · rw [verdictsOf_record session made, if_pos rfl, Verdicts.size_record]
  · have none : (session.record cell block new).verdictsOf cell = session.verdictsOf cell := by
      simp [verdictsOf, record, Array.getD_eq_getD_getElem?, made]
    rw [none]
    exact Nat.le_max_left _ _

namespace HashLevel

variable {admits : StorageCipher → Nat → Prop} {w last : Workspace} {session : Session} {level : HashLevel}
  {block : Nat}

/-- No level has a record behind its last block. -/
def Fitting (w : Workspace) : Prop :=
  ∀ level : HashLevel, level.storage ∈ w.nodes → (w.session.verdictsOf level.cell).size ≤ level.blockCount

theorem keeping_fitting (sound : w.Sound) : Keeping (· ∈ w.nodes) fun session => Fitting ⟨w.nodes, session⟩ where
  closed there := sound.graph.closed _ there
  cached {table inner blockSize capacity} there below := by
    refine cache_keeps fun block _ => cachedBlock_keeps (fun _ => True) (fun _ _ => trivial) (fun _ => trivial) below ?_
    exact fun _ _ fitting => fitting
  checked {cell check data hashes} there fromData fromHashes block start := by
    refine checkedBlock_keeps (fun _ => True) (fun _ _ => trivial) (fun _ => trivial) fromData fromHashes ?_
    intro session new _ _ fitting level member
    have old := fitting level member
    by_cases same : level.cell = cell
    -- the level is the node that was checked, and the block one of its own
    · have node : level.storage = verified cell check data hashes :=
        sound.graph.oneCell _ member _ there cell (congrArg some same) rfl
      obtain ⟨positive, -⟩ : level.storage.WellMade := sound.graph.wellMade _ member
      have inside : block < level.blockCount := by
        cases node
        exact (HashImage.lt_blockCount_iff positive).mpr start
      have grown := session.size_verdictsOf_record cell block new
      rw [← same] at grown ⊢
      dsimp only at old ⊢
      omega
    · dsimp only at old ⊢
      rwa [Session.verdictsOf_record_ne _ same]
  logged _ fitting := fitting

theorem fitting (steps : StepsOf admits {} w) : Fitting w := by
  have preserved : Workspace.Preserved [] Fitting := by
    refine ⟨fun {first last} fitting _ _ grown level member => ?_, fun sound _ => keeping_fitting sound⟩
    obtain old | new := grown.fresh level member
    · rw [grown.same.verdicts]
      exact fitting level old
    · rw [new]
      exact Nat.zero_le _
  exact steps.preserves preserved Workspace.sound_empty nofun nofun

/-- A block that has a verdict is one of the level. -/
theorem lt_blockCount_of_recorded (steps : StepsOf admits {} w) (member : level.storage ∈ w.nodes)
    (recorded : level.blockValidity w.session block ≠ .unchecked) : block < level.blockCount :=
  Nat.lt_of_lt_of_le (Verdicts.lt_size_of_verdict recorded) (fitting steps level member)

/-! ## Records -/

/-- A verdict that was recorded is the one on the raw bytes of the block and of its hash. -/
theorem recorded (sound : w.Sound) (member : level.storage ∈ w.nodes)
    (known : level.blockValidity w.session block ≠ .unchecked) : ∃ bytes hash,
      level.data.raw.byte?.window? (block * level.check.blockSize)
        (blockLength level.data.size level.check.blockSize block) = some bytes ∧
      level.hashes.raw.byte?.window? (block * Sha256.size) Sha256.size = some hash ∧
      level.blockValidity w.session block = level.check.verdict bytes hash := by
  have below := sound.graph.closed _ member
  obtain ⟨bytes, judged⟩ := sound.remembers.verdicts member block known
  simp only [BlockCheck.judge] at judged
  obtain ⟨raw, read, judged⟩ := ok_of_bind judged
  obtain ⟨hash, fetched, judged⟩ := ok_of_bind judged
  have verdict := (Prod.mk.inj (Except.ok.inj judged)).2
  have block := outcome_bytes sound.graph (below level.data (by simp [storage, Storage.children])) read
  have entry := outcome_bytes sound.graph (below level.hashes (by simp [storage, Storage.children])) fetched
  exact ⟨_, _, ByteMap.Below.window? level.data.within_raw.byte block,
    ByteMap.Below.window? level.hashes.within_raw.byte entry, verdict.symm⟩

theorem known_lasting : Lasting fun session => level.blockValidity session block ≠ .unchecked where
  modifyTable _ _ holds := holds
  record cell other _ checked holds :=
    Session.decided_iff.mp (SealedContent.decided_lasting.record cell other checked (Session.decided_iff.mpr holds))
  logged _ holds := holds

/-- A block that has a verdict keeps this verdict. -/
theorem recorded_lasting (sound : w.Sound) (member : level.storage ∈ w.nodes) (steps : StepsOf admits w last)
    (known : level.blockValidity w.session block ≠ .unchecked) :
    level.blockValidity last.session block = level.blockValidity w.session block := by
  have preserved : Workspace.Preserved [] fun middle => level.blockValidity middle.session block ≠ .unchecked := by
    refine ⟨fun holds _ _ grown => ?_, fun sound _ => known_lasting.keeping (sound.graph.closed _)⟩
    rwa [blockValidity, grown.same.verdicts]
  have still := steps.preserves preserved sound nofun known
  -- the verdict is the one that a check gives, before and after
  obtain ⟨_, judged⟩ := sound.remembers.verdicts member block known
  obtain ⟨_, again⟩ := (steps.sound sound).remembers.verdicts (steps.nodes_subset _ member) block still
  exact (Prod.mk.inj (Except.ok.inj (again.symm.trans judged))).2

/-- Without a policy a read is one of the data. -/
theorem read_off (off : level.check.policy = .off) (offset length : Nat) :
    level.storage.read offset length = level.data.read offset length := by
  have own : level.storage.read offset length =
      ranged level.data.size offset length (level.data.read offset length) := by
    simp only [storage, Storage.read, readVerified, if_pos off]
  rw [own, ← Storage.read_eq_ranged]

/-! ## Levels -/

theorem blockValidity_ne_missingKey (steps : StepsOf admits {} w) (member : level.storage ∈ w.nodes) :
    level.blockValidity w.session block ≠ .missingKey := by
  intro missing
  have known : level.blockValidity w.session block ≠ .unchecked := by rw [missing]; decide
  obtain ⟨bytes, hash, -, -, verdict⟩ :=
    recorded (Workspace.sound_of_steps steps) member known
  rw [missing, level.check.verdict_eq] at verdict
  split at verdict <;> cases verdict

theorem validity_eq_invalid_iff (steps : StepsOf admits {} w) (member : level.storage ∈ w.nodes) :
    level.validity w.session = .invalid ↔ ∃ block, level.blockValidity w.session block = .invalid := by
  rw [validity, Validity.mergeAll_eq_invalid_iff, List.mem_map]
  constructor
  · rintro ⟨block, -, invalid⟩
    exact ⟨block, invalid⟩
  · rintro ⟨block, invalid⟩
    have known : level.blockValidity w.session block ≠ .unchecked := by rw [invalid]; decide
    exact ⟨block, List.mem_range.mpr (lt_blockCount_of_recorded steps member known), invalid⟩

theorem validity_eq_valid_iff (session : Session) : level.validity session = .valid ↔
    ∀ block < level.blockCount, level.blockValidity session block = .valid := by
  simp [validity, Validity.mergeAll_eq_valid_iff]

theorem validity_ne_missingKey (steps : StepsOf admits {} w) (member : level.storage ∈ w.nodes) :
    level.validity w.session ≠ .missingKey := by
  intro missing
  obtain valid | among := Validity.mergeAll_eq_valid_or_mem ((List.range level.blockCount).map
    (level.blockValidity w.session))
  · cases missing.symm.trans valid
  · obtain ⟨block, -, same⟩ := List.mem_map.mp among
    exact blockValidity_ne_missingKey steps member (same.trans missing)

/-- All records together, and one that is missing if there are fewer than blocks. -/
theorem validity_eq_table (fits : (session.verdictsOf level.cell).size ≤ level.blockCount) :
    level.validity session =
      if (session.verdictsOf level.cell).size < level.blockCount then
        (Validity.mergeAll (session.verdictsOf level.cell).toList).merge .unchecked
      else .mergeAll (session.verdictsOf level.cell).toList := by
  have table : level.validity session = .mergeAll ((session.verdictsOf level.cell).toList ++
      List.replicate (level.blockCount - (session.verdictsOf level.cell).size) .unchecked) :=
    congrArg Validity.mergeAll (Verdicts.map_verdict _ fits)
  rw [table, Validity.mergeAll_append]
  split
  · rw [Validity.mergeAll_unchecked (by omega)]
  · rw [Nat.sub_eq_zero_of_le (by omega)]
    exact Validity.merge_valid _

end HashLevel

/-- In every workspace that is reached, a block of a level has no verdict or the one on its raw bytes and its raw hash,
    which it keeps. Reads without a policy record nothing. The verdict on the level is the one on its blocks. -/
theorem block_verdicts {admits : StorageCipher → Nat → Prop} {w : Workspace} (reached : StepsOf admits {} w)
    {level : HashLevel} (member : level.storage ∈ w.nodes) :
    (∀ block, level.blockValidity w.session block = .unchecked ∨ (block < level.blockCount ∧ ∃ bytes hash,
      level.data.raw.byte?.window? (block * level.check.blockSize)
        (min level.check.blockSize (level.data.size - block * level.check.blockSize)) = some bytes ∧
      level.hashes.raw.byte?.window? (block * Sha256.size) Sha256.size = some hash ∧
      level.blockValidity w.session block = if (hash.isZero = true ∧ bytes.isZero = true) ∨
        Sha256.digest (if level.check.padded then bytes.zeroExtend level.check.blockSize else bytes) = hash
        then .valid else .invalid)) ∧
    (∀ last block, StepsOf admits w last → level.blockValidity w.session block ≠ .unchecked →
      level.blockValidity last.session block = level.blockValidity w.session block) ∧
    (level.check.policy = .off → ∀ offset length,
      level.storage.read offset length = level.data.read offset length ∧
      ∀ block, level.blockValidity ((level.storage.read offset length).after w.session) block =
        level.blockValidity w.session block) ∧
    (level.validity w.session = .invalid ↔ ∃ block, level.blockValidity w.session block = .invalid) ∧
    (level.validity w.session = .valid ↔
      ∀ block < level.blockCount, level.blockValidity w.session block = .valid) ∧
    ((¬ ∃ block, level.blockValidity w.session block = .invalid) →
      (¬ ∀ block < level.blockCount, level.blockValidity w.session block = .valid) →
      level.validity w.session = .unchecked) ∧
    (level.validity w.session = if (w.session.verdictsOf level.cell).size < level.blockCount then
        (Validity.mergeAll (w.session.verdictsOf level.cell).toList).merge .unchecked
      else .mergeAll (w.session.verdictsOf level.cell).toList) ∧
    (∀ last, StepsOf admits w last → level.validity w.session = .invalid → level.validity last.session = .invalid) := by
  have sound := Workspace.sound_of_steps reached
  refine ⟨fun block => ?_, fun last block steps => HashLevel.recorded_lasting sound member steps,
    fun off offset length => ?_, HashLevel.validity_eq_invalid_iff reached member, HashLevel.validity_eq_valid_iff _,
    fun noInvalid incomplete => ?_, HashLevel.validity_eq_table (HashLevel.fitting reached level member),
    fun last steps invalid => ?_⟩
  · by_cases known : level.blockValidity w.session block = .unchecked
    · exact .inl known
    · have inside := HashLevel.lt_blockCount_of_recorded reached member known
      obtain ⟨bytes, hash, read, fetched, verdict⟩ := HashLevel.recorded sound member known
      exact .inr ⟨inside, bytes, hash, read, fetched, verdict.trans (level.check.verdict_eq bytes hash)⟩
  · rw [HashLevel.read_off off]
    have below : level.data ∈ level.storage.children := by simp [HashLevel.storage, Storage.children]
    have same := sound.graph.read_child_same member below w.session offset length
    exact ⟨rfl, fun block => congrArg (Verdicts.verdict · block) (same.verdicts level.cell rfl)⟩
  · rw [← HashLevel.validity_eq_invalid_iff reached member] at noInvalid
    rw [← HashLevel.validity_eq_valid_iff] at incomplete
    have checked := HashLevel.validity_ne_missingKey reached member
    cases verdict : level.validity w.session <;> simp_all
  · obtain ⟨block, invalid⟩ := (HashLevel.validity_eq_invalid_iff reached member).mp invalid
    have known : level.blockValidity w.session block ≠ .unchecked := by rw [invalid]; decide
    have later := HashLevel.recorded_lasting sound member steps known
    exact (HashLevel.validity_eq_invalid_iff (reached.trans steps) (steps.nodes_subset _ member)).mpr
      ⟨block, later.trans invalid⟩

/-- Two blocks under hashes of zeros: one of zeros, and a short one that does not match. -/
def zeroHashed : HashLevel where
  cell := 0
  check := ⟨2, 1, .ignore, true⟩
  data := .memory #[0, 0, 1]
  hashes := .memory (Array.replicate 64 0)

/-- What is left when the first block was read. -/
def halfChecked : Workspace :=
  ((((Workspace.add {} zeroHashed.data).add zeroHashed.hashes).left (HashLevel.make zeroHashed.data zeroHashed.hashes
    zeroHashed.check)).add zeroHashed.storage).left (zeroHashed.storage.read 1 1)

/-- The first block has its verdict, which the check of the second one does not change. -/
theorem block_verdicts_halfChecked : Steps {} halfChecked ∧ zeroHashed.storage ∈ halfChecked.nodes ∧
    zeroHashed.blockValidity halfChecked.session 0 = .valid ∧
    zeroHashed.blockValidity (halfChecked.left zeroHashed.validate).session 0 = .valid ∧
    zeroHashed.validity halfChecked.session ≠ .invalid := by
  have stored : Steps {} ((Workspace.add {} zeroHashed.data).add zeroHashed.hashes) :=
    .step (.step .refl (.memory (by decide))) (.memory (by decide))
  have made : (HashLevel.make zeroHashed.data zeroHashed.hashes zeroHashed.check).result
      ((Workspace.add {} zeroHashed.data).add zeroHashed.hashes).session = .ok zeroHashed := by rfl
  have reached : Steps {} halfChecked :=
    .step (.step stored (.verified (.tail _ (.head _)) (.head _) made)) (.read (.head _) 1 1)
  have member : zeroHashed.storage ∈ halfChecked.nodes := .head _
  obtain ⟨-, lasting, -, -, -, -, table, -⟩ := block_verdicts reached member
  have first : zeroHashed.blockValidity halfChecked.session 0 = .valid := by decide +kernel
  have later := lasting (halfChecked.left zeroHashed.validate) 0 (.step .refl (.validate member))
    (by rw [first]; decide)
  refine ⟨reached, member, first, later.trans first, ?_⟩
  rw [table]
  decide +kernel

end SealedContent
