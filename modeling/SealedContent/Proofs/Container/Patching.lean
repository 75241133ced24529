import SealedContent.Proofs.Container.Building
import SealedContent.Proofs.Storage.Assembly
import SealedContent.Proofs.Storage.OneBucket

/-! # Patches

A patch section is its data, encrypted subsection by subsection under the generations of a table, and behind the
data the tables, encrypted as a whole (`PatchContent.sealed`). Over the section of a base that can be read as a
whole, it is opened to the bytes that its relocations take from the base and from the patch itself:
`ContainerPlan.patch_as_built`.
-/

namespace SealedContent

open Workspace (Step Steps)

/-! ## Patch sections -/

/-- What a patch section is built from. -/
structure PatchContent where
  data : Bytes
  /-- What stands behind the data, the tables among it. -/
  tables : Bytes
  relocations : BucketTree Relocation
  subsections : BucketTree Subsection

namespace PatchContent

/-- The counter of the tables, that of their own place in the container. -/
def counter (patch : PatchContent) (upper start : Nat) : Aes.Block :=
  Aes.sectionCounter upper (start + patch.data.length)

/-- The section as it is stored from `start` on. -/
def sealed (patch : PatchContent) (key : Aes.Block) (upper start : Nat) : Bytes :=
  BucketTree.sealGenerations key upper start patch.subsections patch.data ++
    Aes.ctr key (patch.counter upper start) patch.tables

/-- The section is laid out as its header says. Both tables are without gaps; the subsections cover the data. -/
structure LaidOut (patch : PatchContent) (layout : PatchLayout) : Prop where
  aligned : Aes.blockSize ∣ patch.data.length
  relocations : layout.relocations.region.offset = patch.data.length
  subsections : patch.data.length ≤ layout.subsections.region.offset
  relocationsInside : layout.relocations.region.size ≤ patch.tables.length
  subsectionsInside : layout.subsections.region.offset + layout.subsections.region.size ≤
    patch.data.length + patch.tables.length
  relocationsCounted : layout.relocations.entries = patch.relocations.entries.length
  subsectionsCounted : layout.subsections.entries = patch.subsections.entries.length
  relocationsWritten : patch.relocations.WrittenIn (patch.tables.window 0 layout.relocations.region.size)
  subsectionsWritten : patch.subsections.WrittenIn
    (patch.tables.window (layout.subsections.region.offset - patch.data.length) layout.subsections.region.size)
  relocationsGapless : patch.relocations.Gapless
  subsectionsGapless : patch.subsections.Gapless
  covered : patch.subsections.size = patch.data.length

variable {w : Workspace} {patch : PatchContent} {layout : PatchLayout} {key : Aes.Block} {upper start : Nat}

theorem LaidOut.length_front (laid : patch.LaidOut layout) (key : Aes.Block) (upper start : Nat) :
    (BucketTree.sealGenerations key upper start patch.subsections patch.data).length = patch.data.length :=
  BucketTree.length_sealGenerations laid.subsectionsGapless laid.covered key upper start

theorem LaidOut.length_sealed (laid : patch.LaidOut layout) (key : Aes.Block) (upper start : Nat) :
    (patch.sealed key upper start).length = patch.data.length + patch.tables.length := by
  rw [sealed, List.length_append, laid.length_front, Aes.ctr, Aes.length_ctrAt]

theorem LaidOut.tables_hold (laid : patch.LaidOut layout) {raw tail : Storage}
    (holds : raw.Holds (patch.sealed key upper start))
    (cut : raw.window patch.data.length (raw.size - patch.data.length) = .ok tail) :
    (Storage.decrypt tail (.ctr key (patch.counter upper start))).Holds patch.tables := by
  have back : (patch.sealed key upper start).window patch.data.length (raw.size - patch.data.length) =
      Aes.ctr key (patch.counter upper start) patch.tables := by
    have long : (Aes.ctr key (patch.counter upper start) patch.tables).length = raw.size - patch.data.length := by
      rw [holds.size, laid.length_sealed, Aes.ctr, Aes.length_ctrAt, Nat.add_sub_cancel_left]
    have place : patch.data.length =
        (BucketTree.sealGenerations key upper start patch.subsections patch.data).length + 0 :=
      (laid.length_front key upper start).symm
    rw [sealed, place, Bytes.window_append_right, ← place, ← long, Bytes.window_all]
  have decrypted := (holds.window cut).ctr key (patch.counter upper start)
  rwa [back, Aes.ctr, Aes.ctr, Aes.ctrAt_ctrAt] at decrypted

theorem LaidOut.data_holds (laid : patch.LaidOut layout) {raw front : Storage}
    (holds : raw.Holds (patch.sealed key upper start)) (cut : raw.window 0 patch.data.length = .ok front)
    (reach : start + patch.data.length ≤ UInt64.size) :
    (Storage.decrypt front (.generations key upper start patch.subsections)).Holds patch.data := by
  have first : (patch.sealed key upper start).window 0 patch.data.length =
      BucketTree.sealGenerations key upper start patch.subsections patch.data :=
    Bytes.window_append_first _ (laid.length_front key upper start)
  exact (first ▸ holds.window cut).generations laid.subsectionsGapless laid.covered reach

/-- The tables of a section are read and decoded, and its data is decrypted with them. -/
theorem LaidOut.patchPlan (laid : patch.LaidOut layout) (sound : w.Sound) {raw : Storage} (member : raw ∈ w.nodes)
    {header : SectionHeader} (stated : header.patch = some layout)
    (holds : raw.Holds (patch.sealed key header.counter start)) (reach : start + raw.size ≤ UInt64.size) (index : Nat) :
    ∃ joined, header.patchPlan index key start raw = .ok (joined, patch.relocations) ∧
      joined.Holds (patch.data ++ patch.tables) := by
  have long := holds.size.trans (laid.length_sealed key header.counter start)
  obtain ⟨tail, cut⟩ := @window_ok raw patch.data.length (raw.size - patch.data.length) (by omega)
  obtain ⟨front, frontCut⟩ := @window_ok raw 0 patch.data.length (by omega)
  have tablesHold := laid.tables_hold holds cut
  have dataHolds := laid.data_holds holds frontCut (by omega)
  -- the tables are read through nodes that are made while the section is opened
  have tailStep : Step w (w.add tail) := .slice member cut
  have tablesStep : Step (w.add tail) ((w.add tail).add
      (.decrypt tail (.ctr key (patch.counter header.counter start)))) := .decrypt (.head _) trivial trivial
  have graph := (tablesStep.sound (tailStep.sound sound)).graph
  have ordered := laid.subsections
  have within := laid.subsectionsInside
  have fits : 0 + layout.relocations.region.size ≤ patch.tables.length := by
    rw [Nat.zero_add]
    exact laid.relocationsInside
  have relocationBytes := tablesHold.outcome graph (.head _) fits
  have subsectionBytes := tablesHold.outcome graph (.head _) (show layout.subsections.region.offset -
    patch.data.length + layout.subsections.region.size ≤ patch.tables.length by omega)
  have relocations := BucketTree.decode_written laid.relocationsGapless laid.relocationsWritten
  have subsections := BucketTree.decode_written laid.subsectionsGapless laid.subsectionsWritten
  refine ⟨_, ?_, dataHolds.concat tablesHold⟩
  have aligned := Nat.mod_eq_zero_of_dvd laid.aligned
  simp only [counter] at relocationBytes subsectionBytes
  simp only [SectionHeader.patchPlan, stated, laid.relocations, laid.relocationsCounted, laid.subsectionsCounted]
  rw [if_neg (by omega), if_neg (by omega)]
  simp only [cut, ok_bind, relocationBytes, subsectionBytes, relocations, subsections, frontCut]
  rfl

/-! ### Tables of one bucket -/

/-- Data with two tables of one bucket behind it, and zeros up to the end of the section. -/
def ofEntries (data : Bytes) (relocations : List Relocation) (size : Nat) (subsections : List Subsection)
    (rest : Nat) : PatchContent where
  data := data
  tables := BucketTree.oneBucketTable Relocation.encode relocations size ++
    (BucketTree.oneBucketTable Subsection.encode subsections data.length ++ Bytes.zeros rest)
  relocations := .oneBucket relocations size
  subsections := .oneBucket subsections data.length

/-- Where those tables lie. -/
def layoutOf (data : Bytes) (relocations : List Relocation) (subsections : List Subsection) : PatchLayout where
  relocations := ⟨⟨data.length, BucketTree.oneBucketSize Relocation relocations.length⟩, 1, relocations.length⟩
  subsections := ⟨⟨data.length + BucketTree.oneBucketSize Relocation relocations.length,
    BucketTree.oneBucketSize Subsection subsections.length⟩, 1, subsections.length⟩

theorem length_ofEntries {data : Bytes} {relocations : List Relocation} {size : Nat} {subsections : List Subsection}
    (relocationsFit : BucketTree.Statable Relocation.encode relocations size)
    (subsectionsFit : BucketTree.Statable Subsection.encode subsections data.length) (rest : Nat) :
    (ofEntries data relocations size subsections rest).tables.length =
      BucketTree.oneBucketSize Relocation relocations.length +
        (BucketTree.oneBucketSize Subsection subsections.length + rest) := by
  rw [ofEntries, List.length_append, List.length_append, BucketTree.length_oneBucketTable relocationsFit.encodes,
    BucketTree.length_oneBucketTable subsectionsFit.encodes, Bytes.length_zeros]

theorem ofEntries_laidOut {data : Bytes} {relocations : List Relocation} {size : Nat} {subsections : List Subsection}
    (aligned : Aes.blockSize ∣ data.length) (relocationsFit : BucketTree.Statable Relocation.encode relocations size)
    (subsectionsFit : BucketTree.Statable Subsection.encode subsections data.length) (rest : Nat) :
    (ofEntries data relocations size subsections rest).LaidOut (layoutOf data relocations subsections) := by
  have first := BucketTree.length_oneBucketTable relocationsFit.encodes size
  have second := BucketTree.length_oneBucketTable subsectionsFit.encodes data.length
  have long := length_ofEntries relocationsFit subsectionsFit rest
  constructor
  case aligned => exact aligned
  case relocations => rfl
  case subsections => exact Nat.le_add_right _ _
  case relocationsInside => rw [long]; exact Nat.le_add_right _ _
  case subsectionsInside =>
    rw [long]
    simp only [layoutOf, ofEntries]
    omega
  case relocationsCounted => rw [ofEntries, BucketTree.entries_oneBucket, layoutOf]
  case subsectionsCounted => rw [ofEntries, BucketTree.entries_oneBucket, layoutOf]
  case relocationsWritten =>
    have window : (ofEntries data relocations size subsections rest).tables.window 0
        (BucketTree.oneBucketSize Relocation relocations.length) = _ := Bytes.window_append_first _ first
    rw [layoutOf, window]
    exact relocationsFit.written
  case subsectionsWritten =>
    have behind : data.length + BucketTree.oneBucketSize Relocation relocations.length - data.length =
        (BucketTree.oneBucketTable Relocation.encode relocations size).length + 0 := by
      rw [first, Nat.add_sub_cancel_left, Nat.add_zero]
    simp only [ofEntries, layoutOf]
    rw [behind, Bytes.window_append_right, Bytes.window_append_first _ second]
    exact subsectionsFit.written
  case relocationsGapless => exact relocationsFit.gapless
  case subsectionsGapless => exact subsectionsFit.gapless
  case covered => rfl

end PatchContent

/-! ## Over a base -/

variable {w : Workspace} {index : Nat}

/-- A section of a container and its bases was opened, and could be read as a whole. -/
structure Patched.ReadAs (w : Workspace) (patched : Patched) (index : Nat) (bytes : Bytes) : Prop where
  top : patched.top.storage ∈ w.nodes
  bases : ∀ base ∈ patched.bases, base.storage ∈ w.nodes
  readable : ∃ opened, (patched.openDecrypted index).result w.session = .ok opened ∧
    opened.readAll.result ((patched.openDecrypted index).after w.session) = .ok bytes

/-- What was opened once is opened as that again. -/
theorem Patched.ReadAs.blueprint (reached : Steps {} w) {patched : Patched} {bytes : Bytes}
    (reads : patched.ReadAs w index bytes) :
    ∃ plan, patched.top.blueprint index patched.bases = .ok plan ∧ plan.Holds bytes := by
  -- the numbers of the tables of caches depend on the state, but the blueprint and its bytes do not
  have sound := Workspace.sound_of_steps reached
  obtain ⟨opened, gives, readable⟩ := reads.readable
  obtain ⟨last, steps, session, failed | succeeded⟩ :=
    Container.openDecrypted_runs index patched.bases patched.top sound reads.top reads.bases
  · obtain ⟨error, refused, -⟩ := failed
    have both := gives.symm.trans refused
    cases both
  · obtain ⟨other, plan, again, planned, there, alike⟩ := succeeded
    have same := gives.symm.trans again
    cases same
    have whole : opened.readAll.result last.session = .ok bytes := by
      rw [session]
      exact readable
    exact ⟨plan, planned, alike.symm.holds (.of_readAll (reached.trans steps) there whole)⟩

namespace ContainerPlan

variable {plan : ContainerPlan} {planned : SectionPlan} {container : Container} {image original : Bytes}
  {patch : PatchContent} {layout : PatchLayout}

/-- The tables of a stored patch are those that it was built from, whatever they relocate to. -/
theorem Follows.patchPlanned (follows : plan.Follows container) (sound : w.Sound)
    (member : container.storage ∈ w.nodes) (holds : container.storage.Holds image)
    (there : plan.sections index = some planned) (ordered : planned.range.first ≤ planned.range.last)
    (cipher : planned.cipher = .generations)
    (stated : planned.patch = some layout) (laid : patch.LaidOut layout)
    (stands : planned.StandsIn image (patch.sealed plan.ctr planned.counter planned.range.start))
    {base : Container} {bases : List Container} {basePlan : Storage}
    (basePlanned : base.blueprint index bases = .ok basePlan) :
    ∃ joined, container.blueprint index (base :: bases) =
        .ok (container.cachePlan (.indirect basePlan joined patch.relocations)) ∧
      joined.Holds (patch.data ++ patch.tables) := by
  obtain ⟨sectionHeader, raw, present, headerCipher, headerPatch, counter, cut, rawHolds⟩ :=
    follows.openRaw holds there ordered stands
  have rawStep : Step w (w.add raw) := .slice member (Container.openRaw_window present cut)
  obtain ⟨joined, made, joinedHolds⟩ := laid.patchPlan (rawStep.sound sound) (.head _) (headerPatch.trans stated)
    (counter ▸ rawHolds) (Container.openRaw_reach sound member present cut) index
  refine ⟨joined, ?_, joinedHolds⟩
  unfold Container.blueprint
  simp only [present, ok_bind, cut, headerCipher, cipher, follows.ctr, made, basePlanned]
  rfl

theorem Follows.patchBlueprint (follows : plan.Follows container) (sound : w.Sound)
    (member : container.storage ∈ w.nodes) (holds : container.storage.Holds image)
    (there : plan.sections index = some planned) (ordered : planned.range.first ≤ planned.range.last)
    (cipher : planned.cipher = .generations)
    (stated : planned.patch = some layout) (laid : patch.LaidOut layout)
    (stands : planned.StandsIn image (patch.sealed plan.ctr planned.counter planned.range.start))
    {base : Container} {bases : List Container} {basePlan : Storage}
    (basePlanned : base.blueprint index bases = .ok basePlan) (baseHolds : basePlan.Holds original)
    (inside : patch.relocations.StaysInside original (patch.data ++ patch.tables)) :
    ∃ opened, container.blueprint index (base :: bases) = .ok opened ∧
      opened.Holds (patch.relocations.relocate original (patch.data ++ patch.tables)) := by
  obtain ⟨joined, made, joinedHolds⟩ :=
    follows.patchPlanned sound member holds there ordered cipher stated laid stands basePlanned
  exact ⟨_, made, cachePlan_holds container (baseHolds.indirect joinedHolds laid.relocationsGapless inside)⟩

/-- A patch that was built opens over any base whose section can be read. Its section then reads as what its
    relocations take from the base and from the patch, whatever is done in between. -/
theorem patch_as_built (reached : Steps {} w) {base : Patched} (reads : base.ReadAs w index original)
    {content : Storage} (member : content ∈ w.nodes) (gives : content.readAll.result w.session = .ok image)
    {ring : KeyRing} {header : Bytes} (stores : StoresHeader ring header image) (described : plan.DescribedIn header)
    (known : plan.KnownTo ring header) (options : ReadOptions) (there : plan.sections index = some planned)
    (cipher : planned.cipher = .generations) (stated : planned.patch = some layout) (laid : patch.LaidOut layout)
    (stands : planned.StandsIn image (patch.sealed plan.ctr planned.counter planned.range.start))
    (inside : patch.relocations.StaysInside original (patch.data ++ patch.tables)) :
    (patch.relocations.relocate original (patch.data ++ patch.tables)).length = patch.relocations.size ∧
    ∃ container, (Container.ofStorage ring content options).result w.session = .ok container ∧
      ∀ later, Steps (w.left (Container.ofStorage ring content options)) later →
        OpensTo later (((Patched.mk container []).withBase base).openDecrypted index)
          (patch.relocations.relocate original (patch.data ++ patch.tables)) := by
  have sound := Workspace.sound_of_steps reached
  have holds := Storage.Holds.of_readAll reached member gives
  obtain ⟨container, opened, steps, rfl, -, follows⟩ := opens sound member holds stores described known options
  refine ⟨BucketTree.length_relocate laid.relocationsGapless inside, container, opened, fun later further => ?_⟩
  have ordered := (described.present index planned there).2.ordered
  obtain ⟨basePlan, basePlanned, baseHolds⟩ := reads.blueprint reached
  obtain ⟨blueprint, found, whole⟩ := follows.patchBlueprint sound member holds there ordered cipher stated laid
    stands basePlanned baseHolds inside
  -- no step removes a node: the storages of the bases are still there
  have all := steps.trans further
  have kept := all.nodes_subset
  refine container.opensTo (all.sound sound) (kept _ member) (fun other below => kept _ ?_) found whole
  cases List.mem_cons.mp below with
  | inl top => rw [top]; exact reads.top
  | inr deeper => exact reads.bases other deeper

/-! ### A patch of two relocations -/

/-- A container that was built can be a base. -/
theorem built_readAs (reached : Steps {} w) {content : Storage} (member : content ∈ w.nodes)
    (gives : content.readAll.result w.session = .ok image) {ring : KeyRing} {header : Bytes}
    (stores : StoresHeader ring header image) (described : plan.DescribedIn header)
    (known : plan.KnownTo ring header) (options : ReadOptions) (there : plan.sections index = some planned)
    {plain stored : Bytes} (seals : planned.Seals plan plain stored) (stands : planned.StandsIn image stored) :
    ∃ container, (Container.ofStorage ring content options).result w.session = .ok container ∧
      Steps {} (w.left (Container.ofStorage ring content options)) ∧
      (Patched.mk container []).ReadAs (w.left (Container.ofStorage ring content options)) index plain := by
  have sound := Workspace.sound_of_steps reached
  have holds := Storage.Holds.of_readAll reached member gives
  obtain ⟨container, opened, steps, rfl, -, follows⟩ := opens sound member holds stores described known options
  have ordered := (described.present index planned there).2.ordered
  obtain ⟨blueprint, found, whole⟩ := follows.blueprint sound member holds there ordered stands seals []
  have kept := steps.nodes_subset _ member
  obtain ⟨node, last, again, -, session, -, sized, reads⟩ :=
    container.opensTo (steps.sound sound) kept (List.forall_mem_nil _) found whole
  have all := reads last .refl 0 node.size
  rw [sized, if_pos (by omega), Bytes.window_all, session] at all
  refine ⟨container, opened, reached.trans steps, kept, List.forall_mem_nil _, node, again, ?_⟩
  rw [Storage.readAll, sized]
  exact all

def sampleData : Bytes := List.replicate 0x10 0x22

def sampleRelocations : List Relocation := [⟨0, 4, 0⟩, ⟨6, 2, 1⟩]

def sampleSubsections : List Subsection := [⟨0, 1⟩, ⟨5, 2⟩]

/-- Six bytes of the base and six bytes of the patch. -/
def samplePatch : PatchContent := .ofEntries sampleData sampleRelocations 12 sampleSubsections 0x188

def sampleLayout : PatchLayout := PatchContent.layoutOf sampleData sampleRelocations sampleSubsections

theorem sampleRelocations_fit : BucketTree.Statable Relocation.encode sampleRelocations 12 :=
  ⟨by decide, BucketTree.encodes_relocations (by decide), by decide, by decide, by decide, by decide⟩

theorem sampleSubsections_fit : BucketTree.Statable Subsection.encode sampleSubsections sampleData.length :=
  ⟨by decide, BucketTree.encodes_subsections (by decide), by decide, by decide, by decide, by decide⟩

theorem samplePatch_laidOut : samplePatch.LaidOut sampleLayout :=
  PatchContent.ofEntries_laidOut (by decide) sampleRelocations_fit sampleSubsections_fit 0x188

theorem samplePatch_inside :
    samplePatch.relocations.StaysInside sampleContent (samplePatch.data ++ samplePatch.tables) := by
  have base : sampleContent.length = 0x200 := List.length_replicate
  have patch : 8 ≤ (samplePatch.data ++ samplePatch.tables).length := by
    have data : samplePatch.data.length = 0x10 := rfl
    rw [List.length_append, data]
    omega
  exact ⟨.inl ⟨rfl, by rw [base]; decide⟩, .inr ⟨rfl, patch⟩, trivial⟩

theorem samplePatch_relocate :
    samplePatch.relocations.relocate sampleContent (samplePatch.data ++ samplePatch.tables) =
      List.replicate 6 0xA5 ++ List.replicate 6 0x22 := by
  have base : sampleContent.window 4 6 = List.replicate 6 0xA5 := by decide +kernel
  have patch : Bytes.window (samplePatch.data ++ samplePatch.tables) 2 6 = List.replicate 6 0x22 :=
    (Bytes.window_append_left (show 2 + 6 ≤ sampleData.length by decide)).trans (by decide)
  show sampleContent.window 4 6 ++ (Bytes.window (samplePatch.data ++ samplePatch.tables) 2 6 ++ []) = _
  rw [base, patch, List.append_nil]

/-- The section of the patch as it is stored. -/
def samplePatchStored : Bytes := samplePatch.sealed (.ofNat 5) 7 0xC00

theorem length_samplePatchStored : samplePatchStored.length = mediaBytes 65 := by
  rw [samplePatchStored, samplePatch_laidOut.length_sealed, samplePatch,
    PatchContent.length_ofEntries sampleRelocations_fit sampleSubsections_fit]
  decide

/-- Two images, of which the first was opened. -/
def sampleWorkspace (baseImage patchImage : Bytes) : Workspace :=
  ((({} : Workspace).add (.ofBytes baseImage)).add (.ofBytes patchImage)).left
    (Container.ofStorage singleRing (.ofBytes baseImage) {})

theorem patch_as_built_sample : ∃ baseImage patchImage base container,
    (Container.ofStorage singleRing (.ofBytes baseImage) {}).result {} = .ok base ∧
    (Container.ofStorage singleRing (.ofBytes patchImage) {}).result (sampleWorkspace baseImage patchImage).session =
      .ok container ∧
    OpensTo ((sampleWorkspace baseImage patchImage).left (Container.ofStorage singleRing (.ofBytes patchImage) {}))
      (((Patched.mk container []).withBase ⟨base, []⟩).openDecrypted 0)
      (List.replicate 6 0xA5 ++ List.replicate 6 0x22) := by
  have noPatch : PatchLayout.DescribedIn (Bytes.zeros 0x40) none := ⟨none, none, rfl, rfl, rfl⟩
  have baseDescribed : (single .plain 1 none).DescribedIn (singleHeader 1 (singleSection 1 (Bytes.zeros 0x40))) :=
    single_described (by decide) (by decide) rfl (Bytes.length_zeros 0x40) noPatch
  have patchInfo : PatchLayout.DescribedIn (patchDescriptor sampleLayout) (some sampleLayout) :=
    patchDescriptor_described ⟨by decide, by decide, by decide, by decide, by decide⟩
      ⟨by decide, by decide, by decide, by decide, by decide⟩
  have patchDescribed : (single .generations 65 (some sampleLayout)).DescribedIn
      (singleHeader 65 (singleSection 4 (patchDescriptor sampleLayout))) :=
    single_described (by decide) (by decide) rfl (length_patchDescriptor _) patchInfo
  obtain ⟨sealedBase, -, baseLong, baseStores⟩ := single_stores 1 (length_singleSection 1 (Bytes.length_zeros 0x40))
  obtain ⟨sealedPatch, -, patchLong, patchStores⟩ :=
    single_stores 65 (length_singleSection 4 (length_patchDescriptor sampleLayout))
  have contentLong : sampleContent.length = mediaBytes 1 := List.length_replicate
  have baseShort : (sealedBase ++ sampleContent).toArray.size < UInt64.size := by
    rw [List.size_toArray, List.length_append, baseLong, contentLong]
    decide
  have patchShort : (sealedPatch ++ samplePatchStored).toArray.size < UInt64.size := by
    rw [List.size_toArray, List.length_append, patchLong, length_samplePatchStored]
    decide
  have reached : Steps {} ((({} : Workspace).add (.ofBytes (sealedBase ++ sampleContent))).add
      (.ofBytes (sealedPatch ++ samplePatchStored))) := .step (.step .refl (.memory baseShort)) (.memory patchShort)
  have basePlanned : (single .plain 1 none).sections 0 = some ⟨⟨6, 7⟩, .plain, 7, none⟩ := rfl
  have patchPlanned : (single .generations 65 (some sampleLayout)).sections 0 =
      some ⟨⟨6, 71⟩, .generations, 7, some sampleLayout⟩ := rfl
  obtain ⟨base, baseOpened, baseReached, reads⟩ := built_readAs reached (.tail _ (.head _)) (readAll_ofBytes _ _)
    (baseStores sampleContent) baseDescribed (single_known 1 _) {} basePlanned (.plain rfl)
    (@single_stands 1 _ rfl _ _ baseLong contentLong)
  obtain ⟨-, container, opened, reading⟩ := patch_as_built baseReached reads (.head _) (readAll_ofBytes _ _)
    (patchStores samplePatchStored) patchDescribed (single_known 65 _) {} patchPlanned rfl rfl samplePatch_laidOut
    (@single_stands 65 _ rfl _ _ patchLong length_samplePatchStored) samplePatch_inside
  have opensTo := reading _ .refl
  rw [samplePatch_relocate] at opensTo
  exact ⟨_, _, base, container, baseOpened, opened, opensTo⟩

end ContainerPlan

end SealedContent
