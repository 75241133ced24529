import SealedContent.Container.Basic
import SealedContent.Proofs.Storage.Runs

/-! # Opening sections

`Container.blueprint` says which storage a section is opened as, from the containers alone: the tables of a
patch are read without a memory, and the tables of all caches have number zero. Opening a section is a run of
steps that follows the blueprint, whatever was done before: `Container.openDecrypted_runs`.
-/

namespace SealedContent

open Workspace (Step Steps)

/-! ## Blueprints -/

/-- The cache in front of a section. -/
def Container.cachePlan (container : Container) (storage : Storage) : Storage :=
  if container.options.cacheCapacity = 0 then storage
  else .cache 0 storage (max container.options.cacheBlockSize 1) (max container.options.cacheCapacity 1)

/-- The data and the relocations of a patch section. -/
def SectionHeader.patchPlan (header : SectionHeader) (index : Nat) (key : Aes.Block) (start : Nat)
    (raw : Storage) : Except Error (Storage × BucketTree Relocation) := do
  let some patch := header.patch | throw (.format (.patchAbsent index))
  let relocations := patch.relocations.region
  let subsections := patch.subsections.region
  if relocations.offset % Aes.blockSize ≠ 0 then
    throw (.layout (.unalignedPatchTable relocations.offset))
  if subsections.offset < relocations.offset then throw (.format .patchTableOrder)
  let counter := Aes.sectionCounter header.counter (start + relocations.offset)
  let tables := Storage.decrypt
    (← raw.window relocations.offset (raw.size - relocations.offset)) (.ctr key counter)
  let relocationBytes ← tables.outcome 0 relocations.size
  let subsectionBytes ← tables.outcome (subsections.offset - relocations.offset) subsections.size
  let relocationTree ← BucketTree.decode relocationBytes patch.relocations.entries
  let subsectionTree ← BucketTree.decode subsectionBytes patch.subsections.entries
  let data := Storage.decrypt (← raw.window 0 relocations.offset)
    (.generations key header.counter start subsectionTree)
  return (.concat [data, tables], relocationTree)

/-- The storage that a section is opened as, but for the numbers of tables. -/
def Container.blueprint (index : Nat) : (container : Container) → (bases : List Container) → Except Error Storage
  | container, bases => do
    let (range, header) ← container.sectionAt index
    let raw ← container.openRaw index
    match header.cipher with
    | .plain => return raw
    | .ctr =>
      let counter := Aes.sectionCounter header.counter range.start
      return container.cachePlan (.decrypt raw (.ctr (← container.keys.ctr) counter))
    | .xts => return container.cachePlan (.decrypt raw (.xts (← container.keys.xts) Envelope.sectorSize 0))
    | .generations =>
      let key ← container.keys.ctr
      match bases with
      | [] => throw (.missingBase index)
      | base :: rest =>
        let (patch, relocations) ← header.patchPlan index key range.start raw
        let patched ← blueprint index base rest
        return container.cachePlan (.indirect patched patch relocations)
    | .unknown code => throw (.layout (.encryption index code))

/-! ## Runs -/

variable {w : Workspace}

theorem Container.cached_runs (container : Container) {storage plan : Storage} (member : storage ∈ w.nodes)
    (alike : storage.Alike plan) :
    Runs w (container.cached storage) (.ok (container.cachePlan plan))
      fun last opened plan => opened ∈ last.nodes ∧ opened.Alike plan := by
  simp only [cached, cachePlan]
  split
  · exact .pure ⟨member, alike⟩
  · have made : (storage.cached container.options.cacheBlockSize container.options.cacheCapacity).result
        w.session = .ok _ := rfl
    exact ⟨_, .step .refl (.cache member made), rfl, .inr ⟨_, _, made, rfl, .head _, alike.cache _ _ _ _⟩⟩

/-- The front of a section under a cipher, and what follows it. -/
theorem joined_steps {raw front rest : Storage} {size : Nat} (rawMember : raw ∈ w.nodes) (restMember : rest ∈ w.nodes)
    (cut : raw.window 0 size = .ok front) {cipher : StorageCipher} (wellMade : cipher.WellMade)
    (fits : cipher.Fits size) (short : size + rest.size < UInt64.size) :
    Steps w (((w.add front).add (.decrypt front cipher)).add (.concat [.decrypt front cipher, rest])) := by
  have sizes : Storage.sizes [.decrypt front cipher, rest] < UInt64.size := by
    simp only [Storage.sizes, Storage.size, (size_window cut).1]
    exact short
  have members : ∀ segment ∈ [Storage.decrypt front cipher, rest],
      segment ∈ ((w.add front).add (.decrypt front cipher)).nodes := by
    intro segment member
    simp only [List.mem_cons, List.not_mem_nil, or_false] at member
    cases member with
    | inl same => rw [same]; exact .head _
    | inr same => rw [same]; exact .tail _ (.tail _ restMember)
  have decrypted : Step (w.add front) ((w.add front).add (.decrypt front cipher)) :=
    .decrypt (.head _) wellMade (by rwa [(size_window cut).1])
  exact .step (.step (.step .refl (.slice rawMember cut)) decrypted) (.concat members sizes)

theorem SectionHeader.patchData_runs (sound : w.Sound) (header : SectionHeader) (index : Nat) (key : Aes.Block)
    {start : Nat} {raw : Storage} (member : raw ∈ w.nodes) (reach : start + raw.size ≤ UInt64.size) :
    Runs w (header.patchData index key start raw) (header.patchPlan index key start raw)
      fun last made plan => made = plan ∧ made.1 ∈ last.nodes ∧ made.2.WellLaid ∧ made.2.size < UInt64.size := by
  simp only [patchData, patchPlan]
  cases header.patch with
  | none => exact .throw _
  | some patch =>
    dsimp only
    split
    · exact .throw_bind _ _ _
    · split
      · exact .throw_bind _ _ _
      · refine .lift_bind fun tail cut => ?_
        have tailStep : Step w (w.add tail) := .slice member cut
        have tablesStep : Step (w.add tail) ((w.add tail).add (.decrypt tail (.ctr key
            (Aes.sectionCounter header.counter (start + patch.relocations.region.offset))))) :=
          .decrypt (.head _) trivial trivial
        have tablesSound := tablesStep.sound (tailStep.sound sound)
        refine .after_steps (.step (.step .refl tailStep) tablesStep) rfl ?_
        -- both tables are read before the rest of the section is touched
        refine .read_bind tablesSound (.head _) fun relocationBytes => ?_
        have firstRead := tablesSound.keeps (tablesSound.read_keeps (.head _) 0 patch.relocations.region.size)
        refine .read_bind firstRead (.head _) fun subsectionBytes => ?_
        refine .lift_bind fun relocations relocationsDecoded => ?_
        refine .lift_bind fun subsections subsectionsDecoded => ?_
        refine .lift_bind fun front frontCut => ?_
        have wellMade : (StorageCipher.generations key header.counter start subsections).WellMade :=
          (BucketTree.decode_wellLaid subsectionsDecoded).1
        obtain ⟨tailSize, inside⟩ := size_window cut
        have fits : (StorageCipher.generations key header.counter start subsections).Fits
            patch.relocations.region.offset := show start + _ ≤ _ by omega
        have short : ∀ cipher, patch.relocations.region.offset + (Storage.decrypt tail cipher).size <
            UInt64.size := by
          intro cipher
          have rawShort := sound.graph.size_lt raw member
          simp only [Storage.size]
          omega
        exact .after_steps (joined_steps (.tail _ (.tail _ member)) (.head _) frontCut wellMade fits (short _)) rfl
          (.pure ⟨rfl, .head _, BucketTree.decode_wellLaid relocationsDecoded⟩)

theorem Container.openRaw_window {container : Container} {index : Nat} {raw : Storage} {range : UnitRange}
    {header : SectionHeader} (found : container.sectionAt index = .ok (range, header))
    (opened : container.openRaw index = .ok raw) : container.storage.window range.start range.size = .ok raw := by
  simp only [openRaw, found] at opened
  exact opened

/-- A section lies inside of its container, all positions of which have 64 bits. -/
theorem Container.openRaw_reach (sound : w.Sound) {container : Container} (member : container.storage ∈ w.nodes)
    {index : Nat} {raw : Storage} {range : UnitRange} {header : SectionHeader}
    (found : container.sectionAt index = .ok (range, header)) (opened : container.openRaw index = .ok raw) :
    range.start + raw.size ≤ UInt64.size := by
  obtain ⟨sized, inside⟩ := size_window (openRaw_window found opened)
  have short := sound.graph.size_lt _ member
  omega

/-- Opening a section follows the blueprint, in whatever state it is done. -/
theorem Container.openDecrypted_runs (index : Nat) :
    ∀ (bases : List Container) (container : Container) {w : Workspace}, w.Sound →
      container.storage ∈ w.nodes → (∀ base ∈ bases, base.storage ∈ w.nodes) →
      Runs w (container.openDecrypted index bases) (container.blueprint index bases)
        fun last opened plan => opened ∈ last.nodes ∧ opened.Alike plan
  | bases, container, w, sound, member, members => by
    unfold openDecrypted blueprint
    refine .lift_bind fun found present => ?_
    obtain ⟨range, header⟩ := found
    refine .lift_bind fun raw opened => ?_
    have rawStep : Step w (w.add raw) := .slice member (openRaw_window present opened)
    have rawSound := rawStep.sound sound
    have reach := openRaw_reach sound member present opened
    refine .after_steps (.step .refl rawStep) rfl ?_
    cases cipher : header.cipher with
    | plain => exact .pure ⟨.head _, .refl raw⟩
    | ctr =>
      refine .lift_bind fun key _ => ?_
      have wellMade : (StorageCipher.ctr key (Aes.sectionCounter header.counter range.start)).WellMade := trivial
      exact .after_steps (.step .refl (.decrypt (.head _) wellMade trivial)) rfl
        (container.cached_runs (.head _) (.refl _))
    | xts =>
      refine .lift_bind fun key _ => ?_
      have wellMade : (StorageCipher.xts key Envelope.sectorSize 0).WellMade :=
        show Envelope.sectorSize ≠ 0 by decide
      have fits : (StorageCipher.xts key Envelope.sectorSize 0).Fits raw.size :=
        StorageCipher.xts_fits key _ (by omega)
      exact .after_steps (.step .refl (.decrypt (.head _) wellMade fits)) rfl
        (container.cached_runs (.head _) (.refl _))
    | generations =>
      refine .lift_bind fun key _ => ?_
      -- the only cipher that goes on to a base, so this is where the bases get fewer
      cases bases with
      | nil => exact .throw _
      | cons base rest =>
        refine .bind (header.patchData_runs rawSound index key (.head _) reach) ?_
        rintro middle ⟨patch, relocations⟩ _ steps ⟨rfl, patchMember, laid, short⟩
        have kept : ∀ node ∈ w.nodes, node ∈ middle.nodes := fun node old =>
          steps.nodes_subset node (.tail _ old)
        refine .bind (openDecrypted_runs index rest base (steps.sound rawSound)
          (kept _ (members base (by simp))) fun other later => kept _ (members other (by simp [later]))) ?_
        rintro last patched plan further ⟨patchedMember, alike⟩
        exact .after_steps (.step .refl (.indirect patchedMember (further.nodes_subset patch patchMember) laid short))
          rfl (container.cached_runs (.head _) (alike.indirect patch relocations))
    | unknown code => exact .throw _

/-! ## What is opened -/

/-- A node is opened that serves the ranges of some bytes from then on, and refuses all others. -/
def OpensTo (w : Workspace) (action : SessionM Storage) (bytes : Bytes) : Prop :=
  ∃ opened last, action.result w.session = .ok opened ∧ Steps w last ∧ last.session = action.after w.session ∧
    opened ∈ last.nodes ∧ opened.size = bytes.length ∧
    ∀ later, Steps last later → ∀ offset length, (opened.read offset length).result later.session =
      if offset + length ≤ bytes.length then .ok (bytes.window offset length)
      else .error (.outOfRange offset length bytes.length)

/-- A node that a computation makes in a workspace, and the workspace that is left. -/
structure Opens (w : Workspace) (action : SessionM Storage) (opened : Storage) (last : Workspace) : Prop where
  gives : action.result w.session = .ok opened
  steps : Steps w last
  session : last.session = action.after w.session
  member : opened ∈ last.nodes

theorem Opens.fits {action : SessionM Storage} {opened : Storage} {last : Workspace}
    (opens : Opens w action opened last) (reached : Steps {} w) : opened.Fits :=
  Workspace.fits_of_steps (reached.trans opens.steps) opened opens.member

theorem Opens.opensTo {action : SessionM Storage} {opened : Storage} {last : Workspace}
    (opens : Opens w action opened last) (sound : w.Sound) {bytes : Bytes} (holds : opened.Holds bytes) :
    OpensTo w action bytes := by
  refine ⟨opened, last, opens.gives, opens.steps, opens.session, opens.member, holds.size, ?_⟩
  intro later further offset length
  have laterSound := further.sound (opens.steps.sound sound)
  have kept := further.nodes_subset opened opens.member
  split
  · next inside => exact holds.read laterSound kept inside
  · next outside => exact holds.read_outside laterSound kept (by omega)

/-- A section is opened to a node with the bytes of its blueprint. -/
theorem Container.opens (sound : w.Sound) {container : Container} {bases : List Container} {index : Nat}
    (member : container.storage ∈ w.nodes) (members : ∀ base ∈ bases, base.storage ∈ w.nodes)
    {plan : Storage} (planned : container.blueprint index bases = .ok plan) :
    ∃ opened last, Opens w (container.openDecrypted index bases) opened last ∧ opened.Alike plan := by
  obtain ⟨last, steps, session, failed | succeeded⟩ := openDecrypted_runs index bases container sound member members
  · obtain ⟨error, -, refused⟩ := failed
    rw [planned] at refused
    cases refused
  · obtain ⟨opened, other, gives, same, there, alike⟩ := succeeded
    rw [planned] at same
    cases same
    exact ⟨opened, last, ⟨gives, steps, session, there⟩, alike⟩

/-- A section that is opened has the bytes of its blueprint. -/
theorem Container.alike_of_opened (sound : w.Sound) {container : Container} {bases : List Container} {index : Nat}
    (member : container.storage ∈ w.nodes) (members : ∀ base ∈ bases, base.storage ∈ w.nodes) {opened : Storage}
    (gives : (container.openDecrypted index bases).result w.session = .ok opened) : ∃ plan last,
      container.blueprint index bases = .ok plan ∧ Opens w (container.openDecrypted index bases) opened last ∧
        opened.Alike plan := by
  obtain ⟨last, steps, session, failed | succeeded⟩ := openDecrypted_runs index bases container sound member members
  · obtain ⟨error, refused, -⟩ := failed
    rw [gives] at refused
    cases refused
  · obtain ⟨other, plan, again, planned, there, alike⟩ := succeeded
    rw [gives] at again
    cases again
    exact ⟨plan, last, planned, ⟨gives, steps, session, there⟩, alike⟩

/-- A section is opened to what its blueprint holds. -/
theorem Container.opensTo (sound : w.Sound) {container : Container} {bases : List Container} {index : Nat}
    (member : container.storage ∈ w.nodes) (members : ∀ base ∈ bases, base.storage ∈ w.nodes)
    {plan : Storage} (planned : container.blueprint index bases = .ok plan) {bytes : Bytes}
    (holds : plan.Holds bytes) : OpensTo w (container.openDecrypted index bases) bytes := by
  obtain ⟨opened, last, opens, alike⟩ := container.opens sound member members planned
  exact opens.opensTo sound (alike.holds holds)

end SealedContent
