import SealedContent.Proofs.HashTree.Levels

/-! # Validation of a tree

The check of all blocks of all levels reads the hashes of a level through the level above, which
follows its policy. It gives a verdict unless the policy is the failing one and a block does not match
that holds the entry of another. In that case it fails at such a block: `validate_verdict`.
-/

namespace SealedContent

namespace Validity

theorem foldl_merge (outcomes : List Validity) :
    ∀ first, outcomes.foldl merge first = merge first (mergeAll outcomes) := by
  simp only [mergeAll]
  induction outcomes with
  | nil => exact fun first => (merge_valid first).symm
  | cons next rest inductionHypothesis =>
    intro first
    rw [List.foldl_cons, List.foldl_cons, inductionHypothesis, inductionHypothesis (merge valid next),
      valid_merge, merge_assoc]

theorem mergeAll_cons (first : Validity) (rest : List Validity) :
    mergeAll (first :: rest) = merge first (mergeAll rest) := by
  conv_lhs => unfold mergeAll
  rw [List.foldl_cons, foldl_merge, valid_merge]

theorem mergeAll_eq_valid_iff {outcomes : List Validity} :
    mergeAll outcomes = valid ↔ ∀ outcome ∈ outcomes, outcome = valid := by
  induction outcomes with
  | nil => simp [mergeAll]
  | cons first rest inductionHypothesis =>
    rw [mergeAll_cons, List.forall_mem_cons, ← inductionHypothesis]
    cases first <;> cases mergeAll rest <;> decide

theorem mergeAll_eq_invalid_iff {outcomes : List Validity} :
    mergeAll outcomes = invalid ↔ invalid ∈ outcomes := by
  induction outcomes with
  | nil => simp [mergeAll]
  | cons first rest inductionHypothesis =>
    rw [mergeAll_cons, List.mem_cons, ← inductionHypothesis]
    cases first <;> cases mergeAll rest <;> decide

end Validity

/-! ## One level -/

variable {image : HashImage} {policy : Policy} {number : Nat}

namespace HashImage

/-- The verdicts on the blocks of a level together. -/
def levelVerdict (image : HashImage) (number count : Nat) : Validity :=
  .mergeAll ((List.range count).map fun index => image.verdict ⟨number, index⟩)

/-- The verdicts on the blocks of several levels together. -/
def levelsVerdict (image : HashImage) (levels : List HashLevel) : Validity :=
  .mergeAll (levels.map fun level => image.levelVerdict level.check.level level.blockCount)

/-- Every block that holds a byte of the entry of another block matches. -/
def EntriesMatch (image : HashImage) : Prop :=
  ∀ lower upper, image.HasBlock lower → image.HoldsEntry lower upper → image.Matches upper

theorem verdict_eq_valid_iff {block : HashBlock} : image.verdict block = .valid ↔ image.Matches block := by
  simp only [verdict]
  split <;> simp [*]

theorem verdict_eq_invalid_iff {block : HashBlock} :
    image.verdict block = .invalid ↔ ¬ image.Matches block := by
  simp only [verdict]
  split <;> simp [*]

theorem levelVerdict_eq_valid_iff {count : Nat} :
    image.levelVerdict number count = .valid ↔ ∀ index < count, image.Matches ⟨number, index⟩ := by
  simp [levelVerdict, Validity.mergeAll_eq_valid_iff, verdict_eq_valid_iff]

theorem levelVerdict_eq_invalid_iff {count : Nat} :
    image.levelVerdict number count = .invalid ↔ ∃ index < count, ¬ image.Matches ⟨number, index⟩ := by
  simp [levelVerdict, Validity.mergeAll_eq_invalid_iff, verdict_eq_invalid_iff]

theorem EntriesMatch.trusted (entries : image.EntriesMatch) (fits : image.Fits) {lower upper : HashBlock}
    (has : image.HasBlock lower) (holds : image.HoldsEntry lower upper) : image.Trusted upper := by
  intro other path
  have upperHas := has.above fits holds
  -- every block of the path holds the entry of the one before it
  cases path.cases_tail with
  | inl same => exact same ▸ entries lower upper has holds
  | inr last =>
    obtain ⟨before, path, lastHolds⟩ := last
    exact entries before other (upperHas.onPath fits path) lastHolds

/-- A fault above a block holds the entry of some block. -/
theorem Fault.holds (fits : image.Fits) {lower upper fault : HashBlock} (has : image.HasBlock lower)
    (holds : image.HoldsEntry lower upper) (found : image.Fault upper fault) :
    ∃ before, image.HasBlock before ∧ image.HoldsEntry before fault := by
  cases found.1.cases_tail with
  | inl same => exact ⟨lower, has, same ▸ holds⟩
  | inr last =>
    obtain ⟨before, path, lastHolds⟩ := last
    exact ⟨before, (has.above fits holds).onPath fits path, lastHolds⟩

end HashImage

namespace LevelAt

variable {level : HashLevel}

theorem blockCount_eq (placed : LevelAt image policy number level) :
    level.blockCount = ((image.level (number + 1)).length + (image.blockSize (number + 1) - 1)) /
      image.blockSize (number + 1) := by
  simp only [HashLevel.blockCount]
  rw [placed.check, placed.size]

theorem lt_blockCount (placed : LevelAt image policy number level) {index : Nat} :
    index < level.blockCount ↔ index * image.blockSize (number + 1) < (image.level (number + 1)).length := by
  rw [placed.blockCount_eq, HashImage.lt_blockCount_iff placed.positive]

theorem validation_ok (placed : LevelAt image policy number level)
    (trusted : policy = .fail → ∀ index < level.blockCount, ∀ upper,
      image.HoldsEntry ⟨number + 1, index⟩ upper → image.Trusted upper) :
    level.validation = .ok (image.levelVerdict (number + 1) level.blockCount) := by
  have blocks : ((List.range level.blockCount).mapM fun index => do
      return (← level.check.judge level.data.size level.data.outcome level.hashes.outcome index).2 :
        Except Error (List Validity)) =
      .ok ((List.range level.blockCount).map fun index => image.verdict ⟨number + 1, index⟩) := by
    apply mapM_ok
    intro index member
    have there := List.mem_range.mp member
    rw [placed.judge_ok (placed.lt_blockCount.mp there) fun failing => trusted failing index there]
    rfl
  simp only [HashLevel.validation]
  rw [blocks]
  rfl

theorem validation_error (placed : LevelAt image policy number level) (failing : policy = .fail)
    (distrusted : ¬ ∀ index < level.blockCount, ∀ upper,
      image.HoldsEntry ⟨number + 1, index⟩ upper → image.Trusted upper) :
    ∃ index upper fault, index < level.blockCount ∧ image.HoldsEntry ⟨number + 1, index⟩ upper ∧
      image.Fault upper fault ∧ level.validation = .error (.integrity fault.level fault.index) := by
  have fails : ∃ index ∈ List.range level.blockCount, ∃ error,
      (do return (← level.check.judge level.data.size level.data.outcome level.hashes.outcome index).2 :
        Except Error Validity) = .error error := by
    push Not at distrusted
    obtain ⟨index, there, upper, holds, distrusted⟩ := distrusted
    obtain ⟨_, fault, -, -, refused⟩ := placed.judge_fault (placed.lt_blockCount.mp there) failing
      fun all => distrusted (all upper holds)
    exact ⟨index, List.mem_range.mpr there, _, by rw [refused]; rfl⟩
  obtain ⟨index, member, error, refused, whole⟩ := mapM_error fails
  have there := List.mem_range.mp member
  by_cases trusted : ∀ upper, image.HoldsEntry ⟨number + 1, index⟩ upper → image.Trusted upper
  · rw [placed.judge_ok (placed.lt_blockCount.mp there) fun _ => trusted] at refused
    cases refused
  · obtain ⟨upper, fault, holds, found, judged⟩ :=
      placed.judge_fault (placed.lt_blockCount.mp there) failing trusted
    rw [judged] at refused
    cases refused
    refine ⟨index, upper, fault, there, holds, found, ?_⟩
    simp only [HashLevel.validation]
    rw [whole]
    rfl

end LevelAt

/-! ## All levels -/

variable {content : Storage} {tree : HashTree} {w : Workspace}

namespace OpenTree

theorem fits (opened : OpenTree content image.master image.placements image.padded policy tree w)
    (readable : content.readAll.result w.session = .ok image.content) :
    image.Fits := by
  obtain ⟨count, levels⟩ := opened.levelAt readable
  have placed : ∀ number < image.placements.length, ∃ level,
      LevelAt image policy number level := by
    intro number inside
    exact ⟨_, levels number _ (List.getElem?_eq_getElem (by omega))⟩
  constructor
  · intro number inside
    exact (placed number inside).choose_spec.positive
  · intro number inside
    exact (placed number inside).choose_spec.entries

/-- Each level of the tree, with its place. -/
theorem levelAt_of_mem (opened : OpenTree content image.master image.placements image.padded policy tree w)
    (readable : content.readAll.result w.session = .ok image.content) {level : HashLevel}
    (member : level ∈ tree.levels) :
    ∃ number < image.placements.length, LevelAt image policy number level := by
  obtain ⟨count, levels⟩ := opened.levelAt readable
  obtain ⟨number, found⟩ := List.mem_iff_getElem?.mp member
  have inside := (List.getElem?_eq_some_iff.mp found).1
  exact ⟨number, by omega, levels number level found⟩

/-- The blocks of the image are those of the levels. -/
theorem hasBlock_iff (opened : OpenTree content image.master image.placements image.padded policy tree w)
    (readable : content.readAll.result w.session = .ok image.content) {block : HashBlock} :
    image.HasBlock block ↔
      ∃ level ∈ tree.levels, block.level = level.check.level ∧ block.index < level.blockCount := by
  constructor
  · rintro ⟨first, last, inside⟩
    obtain ⟨count, levels⟩ := opened.levelAt readable
    have found := List.getElem?_eq_getElem (show block.level - 1 < tree.levels.length by
      omega)
    have placed := levels _ _ found
    have numbered : block.level - 1 + 1 = block.level := by omega
    refine ⟨_, List.mem_of_getElem? found, by rw [placed.check]; exact numbered.symm, ?_⟩
    rw [placed.lt_blockCount, numbered]
    exact inside
  · rintro ⟨level, member, numbered, inside⟩
    obtain ⟨number, below, placed⟩ := opened.levelAt_of_mem readable member
    rw [placed.check] at numbered
    dsimp only at numbered
    rw [placed.lt_blockCount] at inside
    exact ⟨by omega, by omega, by rw [numbered]; exact inside⟩

theorem levelsVerdict_eq_valid_iff
    (opened : OpenTree content image.master image.placements image.padded policy tree w)
    (readable : content.readAll.result w.session = .ok image.content) :
    image.levelsVerdict tree.levels = .valid ↔ ∀ block, image.HasBlock block → image.Matches block := by
  rw [HashImage.levelsVerdict, Validity.mergeAll_eq_valid_iff]
  constructor
  · intro all block has
    obtain ⟨level, member, numbered, there⟩ := (opened.hasBlock_iff readable).mp has
    have valid := HashImage.levelVerdict_eq_valid_iff.mp (all _ (List.mem_map_of_mem member)) _ there
    rwa [← numbered] at valid
  · intro all verdict listed
    obtain ⟨level, member, rfl⟩ := List.mem_map.mp listed
    refine HashImage.levelVerdict_eq_valid_iff.mpr fun index there => all _ ?_
    exact (opened.hasBlock_iff readable).mpr ⟨level, member, rfl, there⟩

theorem levelsVerdict_eq_invalid_iff
    (opened : OpenTree content image.master image.placements image.padded policy tree w)
    (readable : content.readAll.result w.session = .ok image.content) :
    image.levelsVerdict tree.levels = .invalid ↔
      ¬ ∀ block, image.HasBlock block → image.Matches block := by
  rw [HashImage.levelsVerdict, Validity.mergeAll_eq_invalid_iff, List.mem_map]
  constructor
  · rintro ⟨level, member, invalid⟩ all
    obtain ⟨index, there, mismatch⟩ := HashImage.levelVerdict_eq_invalid_iff.mp invalid
    exact mismatch (all _ ((opened.hasBlock_iff readable).mpr ⟨level, member, rfl, there⟩))
  · intro some
    push Not at some
    obtain ⟨block, has, mismatch⟩ := some
    obtain ⟨level, member, numbered, there⟩ := (opened.hasBlock_iff readable).mp has
    refine ⟨level, member, HashImage.levelVerdict_eq_invalid_iff.mpr ⟨block.index, there, ?_⟩⟩
    rwa [← numbered]

/-- Where no read of hashes is refused, all blocks are judged. -/
theorem validation_ok (opened : OpenTree content image.master image.placements image.padded policy tree w)
    (readable : content.readAll.result w.session = .ok image.content)
    (entries : policy = .fail → image.EntriesMatch) :
    tree.validation = .ok (image.levelsVerdict tree.levels) := by
  have fits := opened.fits readable
  have levels : tree.levels.mapM HashLevel.validation =
      .ok (tree.levels.map fun level => image.levelVerdict level.check.level level.blockCount) := by
    apply mapM_ok
    intro level member
    obtain ⟨number, below, placed⟩ := opened.levelAt_of_mem readable member
    rw [placed.check]
    apply placed.validation_ok
    intro failing index there upper holds
    refine (entries failing).trusted fits
      ((opened.hasBlock_iff readable).mpr ⟨level, member, ?_, there⟩) holds
    rw [placed.check]
  rw [HashTree.validation, levels]
  rfl

/-- The first level that cannot be checked names a block that holds an entry and does not match. -/
theorem validation_error (opened : OpenTree content image.master image.placements image.padded policy tree w)
    (readable : content.readAll.result w.session = .ok image.content) (failing : policy = .fail)
    (mismatch : ¬ image.EntriesMatch) :
    ∃ lower upper, image.HasBlock lower ∧ image.HoldsEntry lower upper ∧ ¬ image.Matches upper ∧
      tree.validation = .error (.integrity upper.level upper.index) := by
  have refused : ∃ level ∈ tree.levels, ∃ error, level.validation = .error error := by
    simp only [HashImage.EntriesMatch] at mismatch
    push Not at mismatch
    obtain ⟨lower, upper, has, holds, mismatch⟩ := mismatch
    obtain ⟨level, member, numbered, there⟩ := (opened.hasBlock_iff readable).mp has
    obtain ⟨number, -, placed⟩ := opened.levelAt_of_mem readable member
    rw [placed.check] at numbered
    dsimp only at numbered
    obtain ⟨_, _, _, -, -, -, refused⟩ := placed.validation_error failing fun trusted =>
      mismatch (trusted lower.index there upper (by rwa [← numbered]) upper .refl)
    exact ⟨level, member, _, refused⟩
  obtain ⟨first, member, error, stops, whole⟩ := mapM_error refused
  obtain ⟨number, -, placed⟩ := opened.levelAt_of_mem readable member
  have distrusted : ¬ ∀ index < first.blockCount, ∀ upper,
      image.HoldsEntry ⟨number + 1, index⟩ upper → image.Trusted upper := by
    intro trusted
    rw [placed.validation_ok fun _ => trusted] at stops
    cases stops
  obtain ⟨index, above, fault, inside, holds, found, gives⟩ := placed.validation_error failing distrusted
  have has : image.HasBlock ⟨number + 1, index⟩ :=
    (opened.hasBlock_iff readable).mpr ⟨first, member, by rw [placed.check], inside⟩
  obtain ⟨before, beforeHas, faultHolds⟩ := found.holds (opened.fits readable) has holds
  refine ⟨before, fault, beforeHas, faultHolds, found.2.1, ?_⟩
  rw [HashTree.validation, whole]
  exact stops.symm.trans gives

end OpenTree

/-- Validation says whether all blocks match, in whatever state and under whatever policy, as long as no
    read of hashes on the way is refused. Under the failing policy such a read is refused exactly if a
    block that holds an entry does not match, and the validation fails with it. -/
theorem validate_verdict (opened : OpenTree content image.master image.placements image.padded policy tree w)
    (readable : content.readAll.result w.session = .ok image.content) :
    ((policy = .fail → image.EntriesMatch) → ∃ verdict, tree.validate.result w.session = .ok verdict ∧
      (verdict = .valid ↔ ∀ block, image.HasBlock block → image.Matches block) ∧
      (verdict = .invalid ↔ ¬ ∀ block, image.HasBlock block → image.Matches block)) ∧
    (policy = .fail → ¬ image.EntriesMatch → ∃ lower upper, image.HasBlock lower ∧
      image.HoldsEntry lower upper ∧ ¬ image.Matches upper ∧
      tree.validate.result w.session = .error (.integrity upper.level upper.index)) := by
  have sound := opened.sound
  rw [(tree.validate_answers sound.graph (fun level member =>
    opened.nodes_mem level member _ (by simp [HashLevel.nodes])) _ sound.remembers).1]
  refine ⟨fun entries => ?_, opened.validation_error readable⟩
  exact ⟨_, opened.validation_ok readable entries, opened.levelsVerdict_eq_valid_iff readable,
    opened.levelsVerdict_eq_invalid_iff readable⟩

/-- The middle level of the broken image makes its validation fail under the failing policy, and gives
    the verdict under another one. -/
theorem validate_verdict_broken :
    (brokenTree .ignore).validate.result (brokenWorkspace .ignore).session = .ok .invalid ∧
    (brokenTree .fail).validate.result (brokenWorkspace .fail).session = .error (.integrity 2 0) := by
  have mismatch : ¬ brokenImage.Matches ⟨2, 0⟩ := by decide +kernel
  have middle : brokenImage.HasBlock ⟨2, 0⟩ := ⟨by decide, by decide, by decide⟩
  have data : brokenImage.HasBlock ⟨3, 0⟩ := ⟨by decide, by decide, by decide⟩
  have holds : brokenImage.HoldsEntry ⟨3, 0⟩ ⟨2, 0⟩ := ⟨rfl, by decide, by decide⟩
  constructor
  · obtain ⟨verdict, gives, -, invalid⟩ :=
      (@validate_verdict brokenImage .ignore _ _ _ (@opened_broken .ignore rfl) rfl).1 nofun
    rw [gives, invalid.mpr fun all => mismatch (all _ middle)]
  · have opened := @opened_broken .fail rfl
    obtain ⟨lower, ⟨level, index⟩, has, above, refused, gives⟩ :=
      (@validate_verdict brokenImage .fail _ _ _ opened rfl).2 rfl fun entries =>
        mismatch (entries _ _ data holds)
    obtain ⟨named, -, inside⟩ := has.above (@OpenTree.fits brokenImage _ _ _ _ opened rfl) above
    -- of the two levels that hold entries, the first one matches
    have low : lower.level ≤ 3 := has.2.1
    have upper : level = lower.level - 1 := above.1
    obtain rfl | rfl : level = 1 ∨ level = 2 := by
      dsimp only at named
      omega
    all_goals
      have inside : index * 32 < 32 := inside
      obtain rfl : index = 0 := by omega
    · exact absurd (by decide +kernel) refused
    · exact gives

end SealedContent
