import SealedContent.Proofs.Container.Patching
import SealedContent.Proofs.Container.Policies
import SealedContent.Proofs.Storage.Raw

/-! # Caches in front of sections

A cache fetches whole blocks. What is read through it is what is read without it, but a byte that cannot be read
takes its whole block with it: `ByteMap.window?_cached`. So a section is read through the cache of its container
exactly where every block that is touched can be read without that cache, and where all of a section can be read its
cache makes no difference: `section_cache`.
-/

namespace SealedContent

open Workspace (Step Steps)

/-! ## Blocks -/

theorem Storage.read_eq_ok_iff {w : Workspace} (reached : Steps {} w) {node : Storage} (member : node ∈ w.nodes)
    {offset length : Nat} {bytes : Bytes} : (node.read offset length).result w.session = .ok bytes ↔
      offset + length ≤ node.size ∧ node.byte?.window? offset length = some bytes := by
  have sound := Workspace.sound_of_steps reached
  rw [(node.read_answers sound.graph member offset length _ sound.remembers).1]
  by_cases outside : node.size < offset + length
  · rw [outcome_outside outside]
    constructor
    · nofun
    · rintro ⟨inside, -⟩
      omega
  · have inside : offset + length ≤ node.size := by omega
    rw [and_iff_right inside, outcome_eq_ok_iff sound.graph member (Workspace.fits_of_steps reached node member)
      inside]

/-- A range through a cache needs every block that it touches. -/
theorem ByteMap.window?_cached {map : ByteMap} {blockSize size offset length : Nat} {bytes : Bytes}
    (positive : 0 < blockSize) (nonempty : 0 < length) :
    (map.cached blockSize size).window? offset length = some bytes ↔ map.window? offset length = some bytes ∧
      ∀ block ∈ touchedBlocks blockSize offset length,
        (map.window? (block * blockSize) (blockLength size blockSize block)).isSome := by
  have through : ∀ position, (map.cached blockSize size) position =
      if (map.window? (position / blockSize * blockSize) (blockLength size blockSize (position / blockSize))).isSome
      then map position else none := fun _ => rfl
  constructor
  · intro found
    obtain ⟨long, all⟩ := window?_eq_some_iff.mp found
    -- a position that is read has its whole block around it
    have each : ∀ i < length, map (offset + i) = bytes[i]? ∧
        (map.window? ((offset + i) / blockSize * blockSize)
          (blockLength size blockSize ((offset + i) / blockSize))).isSome := by
      intro i before
      have here := all i before
      rw [through] at here
      split at here
      · next whole => exact ⟨here, whole⟩
      · rw [List.getElem?_eq_getElem (by omega)] at here
        cases here
    refine ⟨window?_eq_some_iff.mpr ⟨long, fun i before => (each i before).1⟩, fun block touched => ?_⟩
    obtain ⟨starts, ends⟩ := (mem_touchedBlocks positive nonempty).mp touched
    obtain ⟨i, before, inside⟩ : ∃ i < length, (offset + i) / blockSize = block := by
      refine ⟨block * blockSize - offset, by omega, ?_⟩
      by_cases first : block * blockSize ≤ offset
      · rw [Nat.sub_eq_zero_of_le first, Nat.add_zero]
        exact Nat.div_eq_of_lt_le first ends
      · rw [Nat.add_sub_of_le (by omega), Nat.mul_div_cancel _ positive]
    rw [← inside]
    exact (each i before).2
  · rintro ⟨found, whole⟩
    obtain ⟨long, all⟩ := window?_eq_some_iff.mp found
    refine window?_eq_some_iff.mpr ⟨long, fun i before => ?_⟩
    have touched : (offset + i) / blockSize ∈ touchedBlocks blockSize offset length := by
      have division := Nat.div_add_mod (offset + i) blockSize
      have remainder := Nat.mod_lt (offset + i) positive
      rw [Nat.mul_comm] at division
      refine (mem_touchedBlocks positive nonempty).mpr ⟨by omega, ?_⟩
      rw [Nat.succ_mul]
      omega
    rw [through, if_pos (whole _ touched)]
    exact all i before

namespace Storage.Within

variable {node other : Storage}

theorem cache (within : node.Within other) (table blockSize capacity : Nat) :
    (Storage.cache table node blockSize capacity).Within other := by
  refine ⟨within.size, fun position byte present => within.byte position byte ?_⟩
  have through : (if _ then node.byte? position else none) = some byte := present
  split at through
  · exact through
  · cases through

theorem indirect (within : node.Within other) (patch : Storage) (table : BucketTree Relocation) :
    (Storage.indirect node patch table).Within (.indirect other patch table) :=
  ⟨rfl, ByteMap.Below.relocated within.byte (fun _ _ present => present) table⟩

end Storage.Within

/-! ## Containers -/

namespace Container

variable {index : Nat} {container : Container} {bases : List Container} {plan : Storage}

def withOptions (container : Container) (options : ReadOptions) : Container := { container with options }

/-- The container with its cache disabled. -/
def uncached (container : Container) : Container := container.withOptions (container.options.withCacheCapacity 0)

/-- The section is read through a cache: only sections in plain text never are. -/
def Caches (container : Container) (index : Nat) : Prop :=
  container.options.cacheCapacity ≠ 0 ∧
    ∀ range header, container.sectionAt index = .ok (range, header) → header.cipher ≠ .plain

/-- The size of the blocks of that cache. -/
def cacheBlock (container : Container) : Nat := max container.options.cacheBlockSize 1

theorem cachePlan_uncached (container : Container) (node : Storage) : container.uncached.cachePlan node = node :=
  if_pos rfl

theorem cachePlan_within (container : Container) {node other : Storage} (within : node.Within other) :
    (container.cachePlan node).Within other := by
  simp only [cachePlan]
  split
  · exact within
  · exact within.cache _ _ _

/-- How the blueprint of a section depends on the options of its container, and on what it patches. -/
inductive Planned (container : Container) (index : Nat) : (bases : List Container) → (plan : Storage) → Prop where
  | plain {bases plan range header} (there : container.sectionAt index = .ok (range, header))
      (cipher : header.cipher = .plain)
      (again : ∀ options others, (container.withOptions options).blueprint index others = .ok plan) :
      Planned container index bases plan
  | sealed {bases inner range header} (there : container.sectionAt index = .ok (range, header))
      (cipher : header.cipher ≠ .plain)
      (again : ∀ options others, (container.withOptions options).blueprint index others =
        .ok ((container.withOptions options).cachePlan inner)) :
      Planned container index bases (container.cachePlan inner)
  | patch {base rest basePlan joined relocations range header}
      (there : container.sectionAt index = .ok (range, header)) (cipher : header.cipher ≠ .plain)
      (below : base.blueprint index rest = .ok basePlan)
      (again : ∀ options (other : Container) others otherPlan, other.blueprint index others = .ok otherPlan →
        (container.withOptions options).blueprint index (other :: others) =
          .ok ((container.withOptions options).cachePlan (.indirect otherPlan joined relocations))) :
      Planned container index (base :: rest) (container.cachePlan (.indirect basePlan joined relocations))

theorem planned_of_blueprint (made : container.blueprint index bases = .ok plan) :
    container.Planned index bases plan := by
  unfold blueprint at made
  obtain ⟨⟨range, header⟩, there, made⟩ := ok_of_bind made
  obtain ⟨raw, opened, made⟩ := ok_of_bind made
  have thereToo : ∀ options, (container.withOptions options).sectionAt index = .ok (range, header) := fun _ => there
  have openedToo : ∀ options, (container.withOptions options).openRaw index = .ok raw := fun _ => opened
  dsimp only at made
  cases cipher : header.cipher with
  | plain =>
    rw [cipher] at made
    cases made
    refine .plain there cipher fun options others => ?_
    unfold blueprint
    simp only [thereToo, openedToo, ok_bind, cipher]
    rfl
  | ctr =>
    rw [cipher] at made
    obtain ⟨key, known, made⟩ := ok_of_bind made
    cases made
    have knownToo : ∀ options, (container.withOptions options).keys.ctr = .ok key := fun _ => known
    refine .sealed there (fun plain => by cases cipher.symm.trans plain) fun options others => ?_
    unfold blueprint
    simp only [thereToo, openedToo, knownToo, ok_bind, cipher]
    rfl
  | xts =>
    rw [cipher] at made
    obtain ⟨key, known, made⟩ := ok_of_bind made
    cases made
    have knownToo : ∀ options, (container.withOptions options).keys.xts = .ok key := fun _ => known
    refine .sealed there (fun plain => by cases cipher.symm.trans plain) fun options others => ?_
    unfold blueprint
    simp only [thereToo, openedToo, knownToo, ok_bind, cipher]
    rfl
  | generations =>
    rw [cipher] at made
    obtain ⟨key, known, made⟩ := ok_of_bind made
    have knownToo : ∀ options, (container.withOptions options).keys.ctr = .ok key := fun _ => known
    cases bases with
    | nil => cases made
    | cons base rest =>
      obtain ⟨⟨joined, relocations⟩, decoded, made⟩ := ok_of_bind made
      obtain ⟨basePlan, below, made⟩ := ok_of_bind made
      cases made
      refine .patch there (fun plain => by cases cipher.symm.trans plain) below
        fun options other others otherPlan otherMade => ?_
      unfold blueprint
      simp only [thereToo, openedToo, knownToo, ok_bind, cipher, decoded, otherMade]
      rfl
  | unknown code =>
    rw [cipher] at made
    cases made

/-- Behind its cache a section is what it is without it. -/
theorem blueprint_uncached (made : container.blueprint index bases = .ok plan) :
    ∃ direct, container.uncached.blueprint index bases = .ok direct ∧
      ((container.Caches index ∧
          plan = .cache 0 direct container.cacheBlock (max container.options.cacheCapacity 1)) ∨
        (¬ container.Caches index ∧ plan = direct)) := by
  have cases : ∀ {range header inner}, container.sectionAt index = .ok (range, header) →
      header.cipher ≠ .plain →
      (container.Caches index ∧ container.cachePlan inner =
          .cache 0 inner container.cacheBlock (max container.options.cacheCapacity 1)) ∨
        (¬ container.Caches index ∧ container.cachePlan inner = inner) := by
    intro range header inner there cipher
    by_cases disabled : container.options.cacheCapacity = 0
    · exact .inr ⟨fun caches => caches.1 disabled, if_pos disabled⟩
    · refine .inl ⟨⟨disabled, fun _ _ again => ?_⟩, if_neg disabled⟩
      cases there.symm.trans again
      exact cipher
  cases planned_of_blueprint made with
  | plain there cipher again =>
    exact ⟨plan, again _ _, .inr ⟨fun caches => caches.2 _ _ there cipher, rfl⟩⟩
  | sealed there cipher again =>
    exact ⟨_, (again _ _).trans (congrArg _ (cachePlan_uncached container _)), cases there cipher⟩
  | patch there cipher below again =>
    exact ⟨_, (again _ _ _ _ below).trans (congrArg _ (cachePlan_uncached container _)), cases there cipher⟩

/-- Without any cache a section has every byte that it has with them. -/
theorem blueprint_within (index : Nat) : ∀ (bases : List Container) (container : Container) {plan : Storage},
    container.blueprint index bases = .ok plan →
    ∃ bare, container.uncached.blueprint index (bases.map uncached) = .ok bare ∧ plan.Within bare
  | bases, container, plan, made => by
    cases planned_of_blueprint made with
    | plain there cipher again => exact ⟨plan, again _ _, (Storage.Alike.refl _).within⟩
    | sealed there cipher again =>
      exact ⟨_, (again _ _).trans (congrArg _ (cachePlan_uncached container _)),
        container.cachePlan_within (Storage.Alike.refl _).within⟩
    | @patch base rest basePlan joined relocations _ _ there cipher below again =>
      obtain ⟨bare, bareMade, within⟩ := blueprint_within index rest base below
      exact ⟨_, (again _ _ _ _ bareMade).trans (congrArg _ (cachePlan_uncached container _)),
        container.cachePlan_within (within.indirect _ _)⟩

/-- Without any cache the section of the container, and those of the containers that it patches, are read as a
    whole. -/
def Readable (index : Nat) (container : Container) (bases : List Container) : Prop :=
  ∀ base below, base :: below <:+ container :: bases →
    ∃ bare bytes, base.uncached.blueprint index (below.map uncached) = .ok bare ∧ bare.Holds bytes

/-- Sections that are read as a whole without any cache have the same bytes with them. -/
theorem blueprint_readable (index : Nat) : ∀ (bases : List Container) (container : Container) {plan : Storage},
    container.blueprint index bases = .ok plan → container.Readable index bases →
    ∃ bare bytes, container.uncached.blueprint index (bases.map uncached) = .ok bare ∧ bare.Holds bytes ∧
      plan.Holds bytes
  | bases, container, plan, made, readable => by
    obtain ⟨bare, bytes, bareMade, holds⟩ := readable container bases List.suffix_rfl
    refine ⟨bare, bytes, bareMade, holds, ?_⟩
    cases planned_of_blueprint made with
    | plain there cipher again =>
      cases (again _ _).symm.trans bareMade
      exact holds
    | sealed there cipher again =>
      cases ((again _ _).trans (congrArg _ (cachePlan_uncached container _))).symm.trans bareMade
      exact ContainerPlan.cachePlan_holds container holds
    | @patch base rest basePlan joined relocations _ _ there cipher below again =>
      -- the base has the same bytes with and without its caches, so the patch takes the same from it
      obtain ⟨bareBase, original, baseMade, baseHolds, planHolds⟩ := blueprint_readable index rest base below
        fun other others suffix => readable other others (suffix.trans (List.suffix_cons _ _))
      cases ((again _ _ _ _ baseMade).trans (congrArg _ (cachePlan_uncached container _))).symm.trans bareMade
      have alike : basePlan.Alike bareBase :=
        ⟨planHolds.size.trans baseHolds.size.symm, planHolds.map_eq.trans baseHolds.map_eq.symm,
          iff_of_true planHolds.fits baseHolds.fits⟩
      exact ContainerPlan.cachePlan_holds container ((alike.indirect joined relocations).holds holds)

end Container

/-! ## Sections -/

namespace Patched

variable {patched : Patched} {index : Nat} {first second : Workspace} {opened : Storage}

/-- The container with the cache of its own disabled. -/
def direct (patched : Patched) : Patched := ⟨patched.top.uncached, patched.bases⟩

/-- The container with all caches disabled, those of what it patches among them. -/
def bare (patched : Patched) : Patched := ⟨patched.top.uncached, patched.bases.map Container.uncached⟩

theorem StandsIn.direct (stands : patched.StandsIn first) : patched.direct.StandsIn first :=
  ⟨stands.reached, stands.top, stands.bases⟩

theorem StandsIn.bare (stands : patched.StandsIn first) : patched.bare.StandsIn first := by
  refine ⟨stands.reached, stands.top, fun base member => ?_⟩
  obtain ⟨cached, there, rfl⟩ := List.mem_map.mp member
  exact stands.bases cached there

/-- Without any cache the section of the container, and those of the containers that it patches, were opened and could
    be read as a whole. -/
def ReadBare (w : Workspace) (patched : Patched) (index : Nat) : Prop :=
  ∀ base below, base :: below <:+ patched.top :: patched.bases →
    ∃ bytes, (Patched.mk base below).bare.ReadAs w index bytes

/-- A node behind the cache of a container gives what it gives without it, where every block that is touched can be
    read. -/
theorem read_cached_iff {direct : Storage} {w directW : Workspace} (reached : Steps {} w) (member : opened ∈ w.nodes)
    (directReached : Steps {} directW) (directMember : direct ∈ directW.nodes) {blockSize table capacity : Nat}
    (positive : 0 < blockSize) (alike : opened.Alike (.cache table direct blockSize capacity)) {offset length : Nat}
    {bytes : Bytes} : (opened.read offset length).result w.session = .ok bytes ↔
      (direct.read offset length).result directW.session = .ok bytes ∧
      (0 < length → ∀ block ∈ touchedBlocks blockSize offset length, ∃ content,
        (direct.read (block * blockSize) (blockLength direct.size blockSize block)).result directW.session =
          .ok content) := by
  have blocks : ∀ block, (∃ content, (direct.read (block * blockSize)
      (blockLength direct.size blockSize block)).result directW.session = .ok content) ↔
      block * blockSize ≤ direct.size ∧
        (direct.byte?.window? (block * blockSize) (blockLength direct.size blockSize block)).isSome := by
    intro block
    simp only [Storage.read_eq_ok_iff directReached directMember, Option.isSome_iff_exists, exists_and_left]
    refine and_congr_left fun _ => ?_
    simp only [blockLength]
    omega
  have size : opened.size = direct.size := alike.size
  have map : opened.byte? = direct.byte?.cached blockSize direct.size := alike.byte
  rw [Storage.read_eq_ok_iff reached member, Storage.read_eq_ok_iff directReached directMember, size, map]
  by_cases empty : length = 0
  · subst empty
    simp
  · have nonempty := Nat.pos_of_ne_zero empty
    simp only [ByteMap.window?_cached positive nonempty, blocks, nonempty, forall_const, and_assoc]
    refine and_congr_right fun inside => and_congr_right fun _ => forall₂_congr fun block touched => ?_
    have := ((ByteMap.mem_touchedBlocks positive nonempty).mp touched).1
    rw [and_iff_right (by omega)]

/-- The same of a section, which is read through a cache or not. -/
theorem read_direct_iff {direct plan directPlan : Storage} {w directW : Workspace} (reached : Steps {} w)
    (member : opened ∈ w.nodes) (directReached : Steps {} directW) (directMember : direct ∈ directW.nodes)
    (alike : opened.Alike plan) (directAlike : direct.Alike directPlan) {capacity : Nat}
    (behind : (patched.top.Caches index ∧ plan = .cache 0 directPlan patched.top.cacheBlock capacity) ∨
      (¬ patched.top.Caches index ∧ plan = directPlan)) {offset length : Nat} {bytes : Bytes} :
    (opened.read offset length).result w.session = .ok bytes ↔
      (direct.read offset length).result directW.session = .ok bytes ∧
      (patched.top.Caches index → 0 < length → ∀ block ∈ touchedBlocks patched.top.cacheBlock offset length, ∃ content,
        (direct.read (block * patched.top.cacheBlock) (blockLength direct.size patched.top.cacheBlock block)).result
          directW.session = .ok content) := by
  obtain ⟨caches, rfl⟩ | ⟨never, rfl⟩ := behind
  · have positive : 0 < patched.top.cacheBlock := Nat.le_max_right _ _
    have through := alike.trans (directAlike.symm.cache 0 0 patched.top.cacheBlock capacity)
    rw [read_cached_iff reached member directReached directMember positive through]
    exact and_congr_right fun _ => ⟨fun blocks _ => blocks, fun blocks => blocks caches⟩
  · rw [Storage.read_eq_ok_iff reached member, Storage.read_eq_ok_iff directReached directMember, alike.size,
      alike.byte, directAlike.size, directAlike.byte]
    exact (and_iff_left fun caches => absurd caches never).symm

theorem ReadBare.readable {w : Workspace} (reached : Steps {} w) (read : patched.ReadBare w index) :
    patched.top.Readable index patched.bases := by
  intro base below suffix
  obtain ⟨bytes, readAs⟩ := read base below suffix
  obtain ⟨plan, made, holds⟩ := readAs.blueprint reached
  exact ⟨plan, bytes, made, holds⟩

end Patched

/-! ### A patch with an unreadable range -/

namespace ContainerPlan

/-- The second range is said to come from a storage that there is not. -/
def lossyRelocations : List Relocation := [⟨0, 4, 0⟩, ⟨6, 2, 7⟩]

def lossyTable : BucketTree Relocation := .oneBucket lossyRelocations 12

def lossyPatch : PatchContent := .ofEntries sampleData lossyRelocations 12 sampleSubsections 0x188

def lossyLayout : PatchLayout := PatchContent.layoutOf sampleData lossyRelocations sampleSubsections

def lossyHeader : Bytes := singleHeader 65 (singleSection 4 (patchDescriptor lossyLayout))

def lossyStored : Bytes := lossyPatch.sealed (.ofNat 5) 7 0xC00

/-- A patch, and the container that it patches. -/
def lossyImage : Bytes := lossyHeader ++ lossyStored

def lossyBaseHeader : Bytes := singleHeader 1 (singleSection 1 (Bytes.zeros 0x40))

def lossyBase : Bytes := lossyBaseHeader ++ sampleContent

def lossyWorkspace : Workspace := (Workspace.add {} (.ofBytes lossyBase)).add (.ofBytes lossyImage)

theorem length_lossyHeader : lossyHeader.length = Envelope.size :=
  length_singleHeader 65 (length_singleSection 4 (length_patchDescriptor _))

theorem length_lossyBaseHeader : lossyBaseHeader.length = Envelope.size :=
  length_singleHeader 1 (length_singleSection 1 (Bytes.length_zeros 0x40))

theorem lossyRelocations_fit : BucketTree.Statable Relocation.encode lossyRelocations 12 :=
  ⟨by decide, BucketTree.encodes_relocations (by decide), by decide, by decide, by decide, by decide⟩

theorem lossyPatch_laidOut : lossyPatch.LaidOut lossyLayout :=
  PatchContent.ofEntries_laidOut (by decide) lossyRelocations_fit sampleSubsections_fit 0x188

theorem length_lossyStored : lossyStored.length = mediaBytes 65 := by
  rw [lossyStored, lossyPatch_laidOut.length_sealed, lossyPatch,
    PatchContent.length_ofEntries lossyRelocations_fit sampleSubsections_fit]
  decide

theorem lossyWorkspace_reached : Steps {} lossyWorkspace := by
  refine .step (.step .refl (.memory ?_)) (.memory ?_)
  · have content : sampleContent.length = 0x200 := List.length_replicate
    rw [List.size_toArray, lossyBase, List.length_append, length_lossyBaseHeader, content]
    decide
  · rw [List.size_toArray, lossyImage, List.length_append, length_lossyHeader, length_lossyStored]
    decide

theorem lossyHeader_described : (single .generations 65 (some lossyLayout)).DescribedIn lossyHeader :=
  single_described (by decide) (by decide) rfl (length_patchDescriptor _)
    (patchDescriptor_described ⟨by decide, by decide, by decide, by decide, by decide⟩
      ⟨by decide, by decide, by decide, by decide, by decide⟩)

theorem lossyBaseHeader_described : (single .plain 1 none).DescribedIn lossyBaseHeader :=
  single_described (by decide) (by decide) rfl (Bytes.length_zeros 0x40) ⟨none, none, rfl, rfl, rfl⟩

/-- A header in plain text in front of anything. -/
theorem stores_plain {ring : KeyRing} {header : Bytes} (long : header.length = Envelope.size) (rest : Bytes) :
    StoresHeader ring header (header ++ rest) := by
  refine ⟨?_, .inl (List.take_left' long)⟩
  rw [List.length_append, long]
  exact Nat.le_add_right _ _

/-- The patch opens with any options, and its section is the table over the section of the base. -/
theorem lossy_opened (options : ReadOptions) : ∃ container base plan,
    (Container.ofStorage singleRing (.ofBytes lossyImage) options).result lossyWorkspace.session = .ok container ∧
    (Container.ofStorage singleRing (.ofBytes lossyBase) {}).result lossyWorkspace.session = .ok base ∧
    (Patched.mk container [base]).StandsIn lossyWorkspace ∧ container.options = options ∧
    (∃ joined, container.uncached.blueprint 0 [base] = .ok (.indirect plan joined lossyTable)) ∧
    (∃ joined, container.blueprint 0 [base] = .ok (container.cachePlan (.indirect plan joined lossyTable))) ∧
    plan.Holds sampleContent := by
  have sound := Workspace.sound_of_steps lossyWorkspace_reached
  have member : .ofBytes lossyImage ∈ lossyWorkspace.nodes := .head _
  have baseMember : .ofBytes lossyBase ∈ lossyWorkspace.nodes := .tail _ (.head _)
  obtain ⟨base, baseOpened, -, baseStorage, -, baseFollows⟩ := opens sound baseMember (.ofBytes _)
    (stores_plain length_lossyBaseHeader _) lossyBaseHeader_described (single_known 1 _) {}
  obtain ⟨container, opened, -, storage, given, follows⟩ := opens sound member (.ofBytes _)
    (stores_plain length_lossyHeader _) lossyHeader_described (single_known 65 _) options
  have baseStored : base.storage.Holds lossyBase := baseStorage ▸ .ofBytes _
  have baseListed : (single .plain 1 none).sections 0 = some ⟨⟨6, 7⟩, .plain, 7, none⟩ := rfl
  have listed : (single .generations 65 (some lossyLayout)).sections 0 =
      some ⟨⟨6, 71⟩, .generations, 7, some lossyLayout⟩ := rfl
  obtain ⟨plan, planned, holds⟩ := baseFollows.blueprint sound (baseStorage ▸ baseMember) baseStored baseListed
    (by decide)
    (single_stands rfl length_lossyBaseHeader (show sampleContent.length = mediaBytes 1 from List.length_replicate))
    (.plain rfl) []
  -- with and without its cache, since neither the header nor the keys tell them apart
  have patch : ∀ {container : Container}, (single .generations 65 (some lossyLayout)).Follows container →
      container.storage = .ofBytes lossyImage → ∃ joined, container.blueprint 0 [base] =
        .ok (container.cachePlan (.indirect plan joined lossyTable)) := by
    intro container follows storage
    have stands := @single_stands 65 ⟨⟨6, 71⟩, .generations, 7, some lossyLayout⟩ rfl _ _ length_lossyHeader
      length_lossyStored
    obtain ⟨joined, made, -⟩ := follows.patchPlanned sound (storage ▸ member) (storage ▸ .ofBytes _) listed
      (by decide) rfl rfl lossyPatch_laidOut stands planned
    exact ⟨joined, made⟩
  refine ⟨container, base, plan, opened, baseOpened, ⟨lossyWorkspace_reached, storage ▸ member, ?_⟩, given,
    @patch container.uncached ⟨follows.ctr, follows.xts, follows.sections⟩ storage, patch follows storage, holds⟩
  intro other below
  obtain rfl := List.mem_singleton.mp below
  exact baseStorage ▸ baseMember

/-- The first six bytes come from the base, and the next one from nowhere. -/
theorem lossy_bytes {plan : Storage} (holds : plan.Holds sampleContent) (joined : Storage) :
    (Storage.indirect plan joined lossyTable).byte?.window? 0 6 = some (List.replicate 6 0xA5) ∧
      (Storage.indirect plan joined lossyTable).byte? 6 = none := by
  have laid : lossyTable.WellLaid := rfl
  have early : ∀ i < 6, lossyTable.find? i = some (⟨0, 4, 0⟩, 6) := fun i before =>
    laid.find?_eq_some_iff_mem.mpr ⟨.head _, Nat.zero_le i, before⟩
  have late : lossyTable.find? 6 = some (⟨6, 2, 7⟩, 12) :=
    laid.find?_eq_some_iff_mem.mpr ⟨.tail _ (.head _), Nat.le_refl 6, by decide⟩
  constructor
  · refine ByteMap.window?_eq_some_iff.mpr ⟨List.length_replicate, fun i before => ?_⟩
    rw [Nat.zero_add]
    simp only [Storage.byte?, ByteMap.relocated, early i before, Relocation.choose?, Option.bind_some, holds.byte]
    rw [sampleContent, List.getElem?_replicate, List.getElem?_replicate, if_pos (by omega), if_pos before]
  · simp only [Storage.byte?, ByteMap.relocated, late, Relocation.choose?, Option.bind_none]

/-- Without its cache the patch gives the six bytes. -/
theorem lossy_direct {container base : Container} {plan joined direct : Storage} {right : Workspace}
    (stands : (Patched.mk container [base]).StandsIn lossyWorkspace)
    (planned : container.uncached.blueprint 0 [base] = .ok (.indirect plan joined lossyTable))
    (holds : plan.Holds sampleContent)
    (opens : Opens lossyWorkspace ((Patched.mk container [base]).direct.openDecrypted 0) direct right) :
    direct.size = 12 ∧ (direct.read 0 6).result right.session = .ok (List.replicate 6 0xA5) := by
  obtain ⟨other, left, again, -, alike⟩ := Container.alike_of_opened stands.direct.sound stands.direct.top
    stands.direct.bases opens.gives
  cases again.symm.trans planned
  refine ⟨alike.size, ?_⟩
  rw [Storage.read_eq_ok_iff (stands.reached.trans opens.steps) opens.member, alike.size, alike.byte]
  exact ⟨show 0 + 6 ≤ 12 by decide, (lossy_bytes holds joined).1⟩

end ContainerPlan

end SealedContent
