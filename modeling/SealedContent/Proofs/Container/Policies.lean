import SealedContent.Proofs.Container.Building
import SealedContent.Proofs.HashTree.Valid

/-! # Sections under a policy

The data of a section are opened without regard to its hashes, or through its hash tree under a policy. Where the
data lie is the same for both, and a policy only keeps bytes back: what it lets through is read without it too. A
section that is found valid is opened to the same data under every policy.
-/

namespace SealedContent

open Workspace (Step Steps)

/-! ## Layouts -/

namespace HashLayout

def master : HashLayout → Bytes
  | table layout => layout.master
  | levels layout => layout.master

/-- The levels of a layout, the data last. -/
def placements : HashLayout → List HashPlacement
  | table layout => [⟨layout.table.offset, layout.table.size, max layout.table.size 1⟩,
      ⟨layout.data.offset, layout.data.size, layout.blockSize⟩]
  | levels layout => layout.levels.map LevelLayout.placement

def padded : HashLayout → Bool
  | table _ => false
  | levels _ => true

end HashLayout

theorem TableLayout.length_master {bytes : Bytes} {layout : TableLayout} (decoded : decode bytes = .ok layout) :
    layout.master.length = Sha256.size := by
  obtain ⟨master, found, decoded⟩ := ok_of_bind decoded
  obtain ⟨blockSize, -, decoded⟩ := ok_of_bind decoded
  obtain ⟨table, -, decoded⟩ := ok_of_bind decoded
  obtain ⟨data, -, decoded⟩ := ok_of_bind decoded
  cases decoded
  exact Bytes.length_of_bytesAt found

theorem LevelsLayout.length_master {bytes : Bytes} {layout : LevelsLayout} (decoded : decode bytes = .ok layout) :
    layout.master.length = Sha256.size := by
  simp only [decode] at decoded
  obtain ⟨magic, -, decoded⟩ := ok_of_bind decoded
  split at decoded
  · cases decoded
  obtain ⟨version, -, decoded⟩ := ok_of_bind decoded
  obtain ⟨masterSize, -, decoded⟩ := ok_of_bind decoded
  obtain ⟨count, -, decoded⟩ := ok_of_bind decoded
  split at decoded
  · cases decoded
  obtain ⟨levels, -, decoded⟩ := ok_of_bind decoded
  split at decoded
  · cases decoded
  obtain ⟨master, found, decoded⟩ := ok_of_bind decoded
  cases decoded
  exact Bytes.length_of_bytesAt found

/-- The master hash of a layout that was read is a hash. -/
theorem HashLayout.length_master {kind : HashKind} {bytes : Bytes} {layout : HashLayout}
    (decoded : decode kind bytes = .ok (some layout)) : layout.master.length = Sha256.size := by
  simp only [decode] at decoded
  split at decoded
  · obtain ⟨table, tableDecoded, same⟩ := ok_of_bind decoded
    cases same
    exact TableLayout.length_master tableDecoded
  · obtain ⟨levels, levelsDecoded, same⟩ := ok_of_bind decoded
    cases same
    exact LevelsLayout.length_master levelsDecoded
  all_goals cases decoded

/-! ## Containers that were opened -/

/-- The header was read from some bytes. -/
theorem ContainerHeader.exists_parsed {w : Workspace} (sound : w.Sound) {content : Storage}
    (member : content ∈ w.nodes) {ring : KeyRing} {header : ContainerHeader}
    (gives : (read ring content).result w.session = .ok header) :
    ∃ bytes encrypted, parse bytes encrypted = .ok header := by
  simp only [read] at gives
  split at gives
  · cases gives
  · obtain ⟨bytes, taken, gives⟩ := SessionM.bind_eq_ok gives
    have long : bytes.length = Envelope.size := by
      rw [(content.read_answers sound.graph member _ _ _ sound.remembers).1] at taken
      exact ByteMap.length_of_window? (outcome_bytes sound.graph member taken)
    split at gives
    · rw [(ofStorage_result long false _).1] at gives
      exact ⟨_, _, gives⟩
    · obtain ⟨key, -, gives⟩ := SessionM.bind_eq_ok gives
      obtain ⟨plain, decrypted, gives⟩ := SessionM.bind_eq_ok gives
      have decrypts : decryptHeader key bytes = .ok plain := decrypted
      rw [(ofStorage_result (encryptHeader_decryptHeader long decrypts).1 true _).1] at gives
      exact ⟨_, _, gives⟩

theorem Container.sectionAt_eq_ok_iff {container : Container} {index : Nat} {found : UnitRange × SectionHeader} :
    container.sectionAt index = .ok found ↔ container.header.section? index = some found := by
  simp only [sectionAt]
  cases container.header.section? index <;> simp

theorem Container.length_master {w : Workspace} (sound : w.Sound) {ring : KeyRing} {content : Storage}
    {options : ReadOptions} {container : Container} (member : content ∈ w.nodes)
    (opened : (Container.ofStorage ring content options).result w.session = .ok container) {index : Nat}
    {range : UnitRange} {header : SectionHeader} (there : container.sectionAt index = .ok (range, header))
    {layout : HashLayout} (hashed : header.hashes = some layout) : layout.master.length = Sha256.size := by
  obtain ⟨read, gives, made⟩ := SessionM.bind_eq_ok opened
  cases made
  obtain ⟨bytes, encrypted, parsed⟩ := ContainerHeader.exists_parsed sound member gives
  have decoded := SectionHeader.decode_parsed (ContainerHeader.section?_parsed parsed (sectionAt_eq_ok_iff.mp there))
  rw [hashed] at decoded
  exact HashLayout.length_master decoded

namespace Patched

/-- The storages of a container, and of those that it patches, are in a workspace. -/
structure StandsIn (patched : Patched) (w : Workspace) : Prop where
  reached : Steps {} w
  top : patched.top.storage ∈ w.nodes
  bases : ∀ base ∈ patched.bases, base.storage ∈ w.nodes

def blueprint (patched : Patched) (index : Nat) : Except Error Storage := patched.top.blueprint index patched.bases

variable {patched : Patched} {index : Nat} {range : UnitRange} {header : SectionHeader} {layout : HashLayout}
  {policy : Policy} {w : Workspace}

theorem StandsIn.sound (stands : patched.StandsIn w) : w.Sound := Workspace.sound_of_steps stands.reached

section
variable (there : patched.top.sectionAt index = .ok (range, header)) (hashed : header.hashes = some layout)
include there hashed

theorem openVerified_eq (policy : Policy) : patched.openVerified index policy = (do
    let content ← patched.openDecrypted index
    HashTree.make content layout.master layout.placements layout.padded policy) := by
  simp only [openVerified, there, SessionM.lift_ok_bind, hashed]
  cases layout <;> rfl

theorem openUnverified_eq : patched.openUnverified index = (do
    let content ← patched.openDecrypted index
    match layout.placements.getLast? with
    | some last => content.window last.offset last.size
    | none => throw (.format .levelsAbsent)) := by
  simp only [openUnverified, there, SessionM.lift_ok_bind, hashed]
  cases layout with
  | table layout => rfl
  | levels layout =>
    simp only [HashLayout.placements, List.getLast?_map]
    cases layout.levels.getLast? <;> rfl

theorem openSection_off_eq : patched.openSection index .off = patched.openUnverified index := by
  simp only [openSection, there, SessionM.lift_ok_bind, hashed]
  rfl

theorem openSection_eq (checked : policy ≠ .off) : patched.openSection index policy = (do
    let tree ← patched.openVerified index policy
    return tree.storage) := by
  simp only [openSection, there, SessionM.lift_ok_bind, hashed]
  rw [if_neg (by simpa using checked)]

theorem verifySection_eq : patched.verifySection index = (do
    let tree ← patched.openVerified index .ignore
    let outcome ← tree.validate
    if outcome = .invalid then
      SessionM.warn (.sectionInvalid index (tree.levelValidity (← get)))
    return outcome) := by
  simp only [verifySection, there, SessionM.lift_ok_bind, hashed]
  rfl

/-! ## Opening -/

variable (stands : patched.StandsIn w)
include stands

/-- The data of a section are opened from its blueprint. -/
theorem opens_off {plan data : Storage} {last : HashPlacement} (planned : patched.blueprint index = .ok plan)
    (found : layout.placements.getLast? = some last) (windowed : plan.window last.offset last.size = .ok data) :
    ∃ plain left, Opens w (patched.openSection index .off) plain left ∧ plain.Alike data := by
  obtain ⟨content, middle, opens, alike⟩ := patched.top.opens stands.sound stands.top stands.bases planned
  obtain ⟨plain, cut⟩ : ∃ plain, content.window last.offset last.size = .ok plain :=
    window_ok (by rw [alike.size]; exact (size_window windowed).2)
  have same : patched.openSection index .off = (do
      let content ← patched.openDecrypted index
      content.window last.offset last.size) := by
    rw [openSection_off_eq there hashed, openUnverified_eq there hashed, found]
  refine ⟨plain, middle.add plain, ⟨?_, .step opens.steps (.slice opens.member cut), ?_, .head _⟩,
    alike.window cut windowed⟩
  · rw [same, openDecrypted, SessionM.result_bind_ok opens.gives, cut]
    rfl
  · rw [same, openDecrypted, SessionM.after_bind_ok opens.gives, cut]
    exact opens.session

/-- The tree over a section is made from its blueprint. -/
theorem openVerified_cases (short : layout.master.length < UInt64.size) {tree : HashTree}
    (made : (patched.openVerified index policy).result w.session = .ok tree) :
    ∃ plan content left, patched.blueprint index = .ok plan ∧ content.Alike plan ∧ content.Fits ∧
      LevelChain content policy layout.padded 1 (.ofBytes layout.master) layout.placements tree.levels ∧
      Steps w left ∧ left.session = (patched.openVerified index policy).after w.session ∧
      ∀ level ∈ tree.levels, level.storage ∈ left.nodes := by
  rw [openVerified_eq there hashed] at made ⊢
  obtain ⟨content, decrypted, made⟩ := SessionM.bind_eq_ok made
  obtain ⟨plan, middle, planned, opens, alike⟩ :=
    patched.top.alike_of_opened stands.sound stands.top stands.bases decrypted
  rw [SessionM.after_bind_ok decrypted]
  rw [openDecrypted, ← opens.session] at made ⊢
  refine ⟨plan, content, _, planned, alike, opens.fits stands.reached, levelChain_of_make made,
    .step opens.steps (.tree opens.member short made), rfl, fun level member => ?_⟩
  exact List.mem_append_left _ (List.mem_flatMap.mpr ⟨level, member, by simp [HashLevel.nodes]⟩)

theorem opens_verified (short : layout.master.length < UInt64.size) (checked : policy ≠ .off) {tree : HashTree}
    (made : (patched.openVerified index policy).result w.session = .ok tree) : ∃ left,
      Opens w (patched.openSection index policy) tree.storage left := by
  obtain ⟨plan, content, left, -, -, -, -, steps, session, members⟩ :=
    openVerified_cases there hashed stands short made
  refine ⟨left, ?_, steps, ?_, members _ (List.getLast_mem tree.nonempty)⟩
  · rw [openSection_eq there hashed checked, SessionM.result_bind_ok made]
    rfl
  · rw [openSection_eq there hashed checked, SessionM.after_bind_ok made]
    exact session

/-- What is opened under a policy has no other bytes than the data. -/
theorem opens_under (short : layout.master.length < UInt64.size) {guarded : Storage}
    (gives : (patched.openSection index policy).result w.session = .ok guarded) : ∃ plan last data left,
      patched.blueprint index = .ok plan ∧ layout.placements.getLast? = some last ∧
      plan.window last.offset last.size = .ok data ∧ Opens w (patched.openSection index policy) guarded left ∧
      guarded.Within data := by
  by_cases unchecked : policy = .off
  · subst unchecked
    have opened := gives
    rw [openSection_off_eq there hashed, openUnverified_eq there hashed] at opened
    obtain ⟨content, decrypted, opened⟩ := SessionM.bind_eq_ok opened
    obtain ⟨plan, -, planned, -, alike⟩ :=
      patched.top.alike_of_opened stands.sound stands.top stands.bases decrypted
    cases found : layout.placements.getLast? with
    | none =>
      rw [found] at opened
      cases opened
    | some last =>
      rw [found] at opened
      have cut : content.window last.offset last.size = .ok guarded := opened
      obtain ⟨data, windowed⟩ : ∃ data, plan.window last.offset last.size = .ok data :=
        window_ok (by rw [← alike.size]; exact (size_window cut).2)
      obtain ⟨plain, left, opens, same⟩ := opens_off there hashed stands planned found windowed
      obtain rfl : plain = guarded := Except.ok.inj (opens.gives.symm.trans gives)
      exact ⟨plan, last, data, left, planned, rfl, windowed, opens, same.within⟩
  · have opened := gives
    rw [openSection_eq there hashed unchecked] at opened
    obtain ⟨tree, made, opened⟩ := SessionM.bind_eq_ok opened
    cases opened
    obtain ⟨plan, content, -, planned, alike, -, chain, -⟩ := openVerified_cases there hashed stands short made
    obtain ⟨last, data, found, windowed, same⟩ := chain.data_alike alike
    obtain ⟨left, opens⟩ := opens_verified there hashed stands short unchecked made
    refine ⟨plan, last, data, left, planned, found, windowed, opens, same.size, fun position byte present => ?_⟩
    exact same.within.byte position byte (HashLevel.byte?_storage present)

/-! ## Valid sections -/

/-- A section that is found valid has valid levels. -/
theorem valid_of_verified (short : layout.master.length < UInt64.size)
    (verified : (patched.verifySection index).result w.session = .ok .valid) : ∃ plan left,
      patched.blueprint index = .ok plan ∧ layout.placements ≠ [] ∧
      ValidLevels plan layout.padded (.ofBytes layout.master) layout.placements ∧ plan.Fits ∧
      Steps w left ∧ left.session = (patched.verifySection index).after w.session := by
  rw [verifySection_eq there hashed] at verified ⊢
  obtain ⟨tree, made, verified⟩ := SessionM.bind_eq_ok verified
  obtain ⟨outcome, validated, verified⟩ := SessionM.bind_eq_ok verified
  obtain ⟨plan, content, left, planned, alike, fits, chain, steps, session, members⟩ :=
    openVerified_cases there hashed stands short made
  have sound := steps.sound stands.sound
  have levelFits := Workspace.fits_of_steps (stands.reached.trans steps)
  have judged := (tree.validate_answers sound.graph members _ sound.remembers).1
  rw [session, validated] at judged
  -- a warning is given for an invalid section, but the verdict stays
  have valid : outcome = .valid := by
    cases outcome with
    | invalid =>
      obtain ⟨_, -, gives⟩ := SessionM.bind_eq_ok verified
      cases gives
    | valid => rfl
    | unchecked => cases verified
    | missingKey => cases verified
  subst valid
  have allValid : ∀ level ∈ tree.levels, ValidBlocks level.check level.data.size level.data.byte? level.hashes.byte? :=
    fun level member =>
      (HashLevel.validation_eq_valid_iff sound.graph (members level member) (levelFits _ (members level member))).mp
      (HashTree.validation_eq_valid_iff.mp judged.symm level member)
  have nonempty : layout.placements ≠ [] := by
    intro none
    rw [none] at chain
    have empty := tree.nonempty
    generalize tree.levels = levels at chain empty
    cases chain
    exact empty rfl
  refine ⟨plan, _, planned, nonempty, chain.validLevels alike (.refl _) fits trivial allValid, alike.fits.mp fits,
    .step steps (.validateTree members), ?_⟩
  rw [SessionM.after_bind_ok made, SessionM.after_bind_ok validated, ← session]
  rfl

theorem openVerified_ok (short : layout.master.length < UInt64.size) {plan : Storage}
    (planned : patched.blueprint index = .ok plan) (nonempty : layout.placements ≠ [])
    (levelsValid : ValidLevels plan layout.padded (.ofBytes layout.master) layout.placements) (policy : Policy) :
    ∃ tree, (patched.openVerified index policy).result w.session = .ok tree := by
  obtain ⟨content, middle, opens, alike⟩ := patched.top.opens stands.sound stands.top stands.bases planned
  obtain ⟨tree, made⟩ := levelsValid.make_ok (opens.steps.sound stands.sound) opens.member
    (opens.fits stands.reached) short alike nonempty policy
  refine ⟨tree, ?_⟩
  rw [openVerified_eq there hashed, openDecrypted, SessionM.result_bind_ok opens.gives, ← opens.session]
  exact made

/-- A section with valid levels is found valid. -/
theorem verified_of_valid (short : layout.master.length < UInt64.size) {plan : Storage}
    (planned : patched.blueprint index = .ok plan) (nonempty : layout.placements ≠ [])
    (levelsValid : ValidLevels plan layout.padded (.ofBytes layout.master) layout.placements) :
    (patched.verifySection index).result w.session = .ok .valid := by
  obtain ⟨tree, made⟩ := openVerified_ok there hashed stands short planned nonempty levelsValid .ignore
  obtain ⟨other, content, left, again, alike, fits, chain, steps, session, members⟩ :=
    openVerified_cases there hashed stands short made
  obtain rfl : other = plan := Except.ok.inj (again.symm.trans planned)
  have sound := steps.sound stands.sound
  have levelFits := Workspace.fits_of_steps (stands.reached.trans steps)
  have valid : tree.validation = .ok .valid := HashTree.validation_eq_valid_iff.mpr fun level member =>
    (HashLevel.validation_eq_valid_iff sound.graph (members level member) (levelFits _ (members level member))).mpr
      (levelsValid.validBlocks chain alike (.refl _) fits trivial level member)
  have judged := (tree.validate_answers sound.graph members _ sound.remembers).1
  rw [valid, session] at judged
  rw [verifySection_eq there hashed, SessionM.result_bind_ok made, SessionM.result_bind_ok judged]
  rfl

/-- A section with valid levels opens to its data under every policy. -/
theorem opens_valid (short : layout.master.length < UInt64.size) {plan data : Storage} {last : HashPlacement}
    (planned : patched.blueprint index = .ok plan)
    (levelsValid : ValidLevels plan layout.padded (.ofBytes layout.master) layout.placements)
    (found : layout.placements.getLast? = some last) (windowed : plan.window last.offset last.size = .ok data)
    (policy : Policy) : ∃ opened left, Opens w (patched.openSection index policy) opened left ∧ opened.Alike data := by
  by_cases unchecked : policy = .off
  · subst unchecked
    exact opens_off there hashed stands planned found windowed
  · have nonempty : layout.placements ≠ [] := by
      intro none
      rw [none] at found
      cases found
    obtain ⟨tree, made⟩ := openVerified_ok there hashed stands short planned nonempty levelsValid policy
    obtain ⟨other, content, -, again, alike, fits, chain, -⟩ := openVerified_cases there hashed stands short made
    obtain rfl : other = plan := Except.ok.inj (again.symm.trans planned)
    obtain ⟨left, opens⟩ := opens_verified there hashed stands short unchecked made
    obtain ⟨bottom, lastFound, cut⟩ := chain.window_last (List.getLast?_eq_some_getLast tree.nonempty)
    obtain rfl : bottom = last := Option.some.inj (lastFound.symm.trans found)
    have valid := levelsValid.validBlocks chain alike (.refl _) fits trivial _ (List.getLast_mem tree.nonempty)
    have same := alike.window cut windowed
    have dataFits : data.Fits := (Storage.fits_window windowed).mpr (alike.fits.mp fits)
    exact ⟨tree.storage, left, opens, same.size, (valid.verified_eq (window_outside cut)).trans same.byte,
      iff_of_true (opens.fits stands.reached) dataFits⟩

end

def sampleData : Bytes := List.replicate 0x20 0x5A

/-- The table with the hash of the data, and the data behind it. -/
def sampleTable : TableLayout := ⟨Sha256.digest (Sha256.digest sampleData), 0x20, ⟨0, 0x20⟩, ⟨0x20, 0x20⟩⟩

def sampleTree : Bytes := Sha256.digest sampleData ++ (sampleData ++ Bytes.zeros 0x1C0)

def sampleHeader : Bytes := ContainerPlan.singleHeader 1 (ContainerPlan.tableSection sampleTable)

def sampleImage : Bytes := sampleHeader ++ sampleTree

theorem sampleTable_fits : ContainerPlan.FitsHashes sampleTable :=
  ⟨Sha256.length_digest _, by decide, by decide, by decide⟩

theorem length_sampleTree : sampleTree.length = mediaBytes 1 := by
  simp [sampleTree, sampleData, Sha256.length_digest, mediaBytes, mediaUnit]

theorem sampleTree_levels {plan : Storage} (holds : plan.Holds sampleTree) :
    ValidLevels plan false (.ofBytes sampleTable.master) (HashLayout.table sampleTable).placements := by
  have long : ∀ {start}, start + 0x20 ≤ 0x200 → start + 0x20 ≤ plan.size := by
    intro start inside
    rw [holds.size, length_sampleTree]
    exact inside
  obtain ⟨table, tableCut⟩ : ∃ table, plan.window 0 0x20 = .ok table := window_ok (long (by decide))
  obtain ⟨data, dataCut⟩ : ∃ data, plan.window 0x20 0x20 = .ok data := window_ok (long (by decide))
  have tableHolds : table.Holds (Sha256.digest sampleData) := by
    have cut := holds.window tableCut
    rwa [sampleTree, Bytes.window_append_first _ (Sha256.length_digest _)] at cut
  have dataHolds : data.Holds sampleData := by
    have cut := holds.window dataCut
    rwa [sampleTree, Bytes.window_append_of_le (Nat.le_of_eq (Sha256.length_digest _)), Sha256.length_digest,
      Bytes.window_append_first _ (by decide)] at cut
  have masterHolds : (Storage.ofBytes sampleTable.master).Holds (Sha256.digest (Sha256.digest sampleData)) :=
    .ofBytes _
  have tableLong : (Sha256.digest sampleData).length = 0x20 := Sha256.length_digest _
  have masterLong : (Sha256.digest (Sha256.digest sampleData)).length = 0x20 := Sha256.length_digest _
  have dataLong : sampleData.length = 0x20 := by decide
  refine .cons tableCut (by decide) ?_ (.single tableLong tableHolds masterHolds)
    (.cons dataCut (by decide) ?_ (.single dataLong dataHolds tableHolds) .nil)
  · rw [tableHolds.size, masterHolds.size, tableLong, masterLong]
    decide
  · rw [dataHolds.size, tableHolds.size, dataLong, tableLong]
    decide

def sampleWorkspace : Workspace := Workspace.add {} (.ofBytes sampleImage)

theorem length_sampleHeader : sampleHeader.length = Envelope.size :=
  ContainerPlan.length_singleHeader 1 (ContainerPlan.tableSection_states sampleTable_fits).length

theorem sampleWorkspace_reached : Steps {} sampleWorkspace := by
  refine .step .refl (.memory ?_)
  rw [List.size_toArray, sampleImage, List.length_append, length_sampleHeader, length_sampleTree]
  decide

/-- The image is opened as a container with one section, and that is the tree. -/
theorem sampleImage_opened : ∃ container header plan,
    (Container.ofStorage ContainerPlan.singleRing (.ofBytes sampleImage) {}).result sampleWorkspace.session =
      .ok container ∧ container.storage = .ofBytes sampleImage ∧
    container.sectionAt 0 = .ok (⟨6, 7⟩, header) ∧ header.hashes = some (.table sampleTable) ∧
    container.blueprint 0 [] = .ok plan ∧ plan.Holds sampleTree := by
  have sound := Workspace.sound_of_steps sampleWorkspace_reached
  have states := ContainerPlan.tableSection_states sampleTable_fits
  have described := states.plan_described (show 1 < 0x100 by decide)
  have stores : ContainerPlan.StoresHeader ContainerPlan.singleRing sampleHeader sampleImage := by
    refine ⟨?_, .inl (List.take_left' length_sampleHeader)⟩
    rw [sampleImage, List.length_append, length_sampleHeader]
    exact Nat.le_add_right _ _
  obtain ⟨container, opened, -, same, -, follows⟩ :=
    ContainerPlan.opens sound (.head _) (.ofBytes _) stores described (ContainerPlan.single_known 1 _) {}
  have stored : container.storage.Holds sampleImage := same ▸ .ofBytes _
  have stands : (⟨⟨6, 7⟩, .plain, 7, none⟩ : SectionPlan).StandsIn sampleImage sampleTree :=
    ContainerPlan.single_stands rfl length_sampleHeader length_sampleTree
  have listed : (ContainerPlan.single .plain 1 none).sections 0 = some ⟨⟨6, 7⟩, .plain, 7, none⟩ := rfl
  obtain ⟨header, _, there, -⟩ := follows.openRaw stored listed (by decide) stands
  obtain ⟨plan, planned, planHolds⟩ := follows.blueprint sound (same ▸ .head _) stored listed (by decide) stands
    (.plain rfl) []
  obtain ⟨_, parsed⟩ := stores.parsed described sound (.head _) (.ofBytes _) opened
  have decoded := SectionHeader.decode_parsed (states.parsed parsed (Container.sectionAt_eq_ok_iff.mp there))
  have hashes := (ContainerPlan.tableSection_decode sampleTable_fits).symm.trans decoded
  exact ⟨container, header, plan, opened, same, there, (Except.ok.inj hashes).symm, planned, planHolds⟩

end Patched

end SealedContent
