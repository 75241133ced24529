import SealedContent.Proofs.Container.Single

/-! # Building undone

`SectionPlan.Seals` says how a section is stored: in plain text, under the keystream that starts at its place in
the container, or in sectors. A container that was built opens, and every section of it reads as the plain text
that it was built from: `ContainerPlan.sections_as_built`.
-/

namespace SealedContent

open Aes (Block XtsKey encryptBlock)
open Workspace (Steps)

/-! ## Sections -/

/-- How a section of a plan is stored. Under a rights ID there are no sectors. -/
inductive SectionPlan.Seals (plan : ContainerPlan) (planned : SectionPlan) : (plain stored : Bytes) → Prop where
  | plain {plain} (cipher : planned.cipher = .plain) : Seals plan planned plain plain
  | ctr {plain} (cipher : planned.cipher = .ctr) : Seals plan planned plain
      (Aes.ctr plan.ctr (Aes.sectionCounter planned.counter planned.range.start) plain)
  | xts {plain stored} (cipher : planned.cipher = .xts) (noRights : plan.rightsId.toBytes.isZero = true)
      (seals : Aes.xtsEncrypt plan.xts 0 Envelope.sectorSize plain = .ok stored) : Seals plan planned plain stored

namespace ContainerPlan

variable {plan : ContainerPlan} {planned : SectionPlan} {container : Container} {index : Nat}
  {image stored plain : Bytes}

theorem Follows.openRaw (follows : plan.Follows container) (holds : container.storage.Holds image)
    (there : plan.sections index = some planned) (ordered : planned.range.first ≤ planned.range.last)
    (stands : planned.StandsIn image stored) :
    ∃ sectionHeader raw, container.sectionAt index = .ok (planned.range, sectionHeader) ∧
      sectionHeader.cipher = planned.cipher ∧ sectionHeader.patch = planned.patch ∧
      sectionHeader.counter = planned.counter ∧ container.openRaw index = .ok raw ∧ raw.Holds stored := by
  obtain ⟨sectionHeader, found, cipher, patch, counter⟩ := follows.sections index planned there
  have present : container.sectionAt index = .ok (planned.range, sectionHeader) := by
    rw [Container.sectionAt, found]
  have fits : planned.range.start + planned.range.size ≤ container.storage.size := by
    rw [UnitRange.start_add_size ordered, holds.size]
    exact stands.inside
  obtain ⟨raw, cut⟩ := window_ok fits
  refine ⟨sectionHeader, raw, present, cipher, patch, counter, ?_, stands.stands ▸ holds.window cut⟩
  rw [Container.openRaw, present]
  exact cut

theorem cachePlan_holds (container : Container) {storage : Storage} (holds : storage.Holds plain) :
    (container.cachePlan storage).Holds plain := by
  simp only [Container.cachePlan]
  split
  · exact holds
  · exact holds.cache _ _ _

/-- A section that was stored by a plan is decrypted again. -/
theorem Follows.blueprint {w : Workspace} (follows : plan.Follows container) (sound : w.Sound)
    (member : container.storage ∈ w.nodes) (holds : container.storage.Holds image)
    (there : plan.sections index = some planned) (ordered : planned.range.first ≤ planned.range.last)
    (stands : planned.StandsIn image stored) (seals : planned.Seals plan plain stored) (bases : List Container) :
    ∃ opened, container.blueprint index bases = .ok opened ∧ opened.Holds plain := by
  obtain ⟨sectionHeader, raw, present, cipher, -, counter, cut, rawHolds⟩ :=
    follows.openRaw holds there ordered stands
  unfold Container.blueprint
  simp only [present, ok_bind, cut, cipher, counter]
  cases seals with
  | plain plainly =>
    simp only [plainly]
    exact ⟨raw, rfl, rawHolds⟩
  | ctr keystream =>
    -- the keystream starts at the place of the section in the container on both sides
    have decrypted := rawHolds.ctr plan.ctr (Aes.sectionCounter planned.counter planned.range.start)
    rw [Aes.ctr, Aes.ctr, Aes.ctrAt_ctrAt] at decrypted
    simp only [keystream, follows.ctr]
    exact ⟨_, rfl, cachePlan_holds container decrypted⟩
  | xts sectors noRights sealed =>
    have reach := Container.openRaw_reach sound member present cut
    have decrypted := rawHolds.xts (Aes.xtsDecrypt_xtsEncrypt sealed)
      (StorageCipher.xts_fits _ _ (by rw [← rawHolds.size]; omega))
    simp only [sectors, follows.xts noRights]
    exact ⟨_, rfl, cachePlan_holds container decrypted⟩

/-- A container that was built opens, with any options. Its sections then read as they were before they were
    stored, whatever is done in between. -/
theorem sections_as_built {w : Workspace} (reached : Steps {} w) {content : Storage} (member : content ∈ w.nodes)
    (gives : content.readAll.result w.session = .ok image) {ring : KeyRing} {header : Bytes}
    (stores : StoresHeader ring header image) (described : plan.DescribedIn header)
    (known : plan.KnownTo ring header) (options : ReadOptions) :
    ∃ container, (Container.ofStorage ring content options).result w.session = .ok container ∧
      ∀ index planned plain stored, plan.sections index = some planned → planned.Seals plan plain stored →
        planned.StandsIn image stored →
      ∀ later, Steps (w.left (Container.ofStorage ring content options)) later →
      ∀ bases : List Container, (∀ base ∈ bases, base.storage ∈ later.nodes) →
        OpensTo later ((Patched.mk container bases).openDecrypted index) plain := by
  have sound := Workspace.sound_of_steps reached
  have holds := Storage.Holds.of_readAll reached member gives
  obtain ⟨container, opened, steps, rfl, -, follows⟩ := opens sound member holds stores described known options
  refine ⟨container, opened, fun index planned plain stored there seals stands later further bases members => ?_⟩
  have ordered := (described.present index planned there).2.ordered
  -- the blueprint is found without a session, so nothing that is done before the section is opened matters
  obtain ⟨blueprint, found, whole⟩ := follows.blueprint sound member holds there ordered stands seals bases
  have all := steps.trans further
  exact container.opensTo (all.sound sound) (all.nodes_subset _ member) members found whole

/-! ### A section of one unit -/

def sampleContent : Bytes := List.replicate 0x200 0xA5

/-- A section behind the header. -/
def sampleSection : SectionPlan := ⟨⟨6, 7⟩, .ctr, 7, none⟩

/-- The section under the keystream of its plan. -/
def sampleStored : Bytes := Aes.ctr (.ofNat 5) (Aes.sectionCounter 7 sampleSection.range.start) sampleContent

/-- The header of a container of that section. -/
def sampleHeader : Bytes := singleHeader 1 (singleSection 3 (Bytes.zeros 0x40))

theorem length_sampleStored : sampleStored.length = mediaBytes 1 := by
  rw [sampleStored, Aes.ctr, Aes.length_ctrAt, sampleContent, List.length_replicate, mediaBytes, mediaUnit]

theorem sections_as_built_single : ∃ sealed container, encryptHeader sampleKey sampleHeader = .ok sealed ∧
    (Container.ofStorage singleRing (.ofBytes (sealed ++ sampleStored)) {}).result {} = .ok container ∧
    OpensTo ((({} : Workspace).add (.ofBytes (sealed ++ sampleStored))).left
      (Container.ofStorage singleRing (.ofBytes (sealed ++ sampleStored)) {}))
      ((Patched.mk container []).openDecrypted 0) sampleContent := by
  have described : (single .ctr 1 none).DescribedIn sampleHeader :=
    single_described (by decide) (by decide) rfl (Bytes.length_zeros 0x40) ⟨none, none, rfl, rfl, rfl⟩
  obtain ⟨sealed, seals, long, stores⟩ := single_stores 1 (length_singleSection 3 (Bytes.length_zeros 0x40))
  have short : (sealed ++ sampleStored).toArray.size < UInt64.size := by
    rw [List.size_toArray, List.length_append, long, length_sampleStored]
    decide
  have reached : Steps {} (({} : Workspace).add (.ofBytes (sealed ++ sampleStored))) := .step .refl (.memory short)
  obtain ⟨container, opened, sections⟩ := sections_as_built reached (.head _) (readAll_ofBytes _ _)
    (stores sampleStored) described (single_known 1 _) {}
  have sealedSection : sampleSection.Seals (single .ctr 1 none) sampleContent sampleStored := .ctr rfl
  exact ⟨sealed, container, seals, opened, sections 0 sampleSection sampleContent sampleStored rfl sealedSection
    (single_stands rfl long length_sampleStored) _ .refl [] (List.forall_mem_nil _)⟩

end ContainerPlan

end SealedContent
