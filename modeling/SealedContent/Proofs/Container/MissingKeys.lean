import SealedContent.Proofs.Container.Building
import SealedContent.Proofs.Storage.Failures

/-! # Keys that are missing

A container is opened with its header key alone: `ContainerHeader.outcome` is what is read, and no other key plays a
part in it. A content key that is missing only counts when a section needs it. `Container.canOpen` says beforehand
whether one is, through all the containers that are patched: `missing_keys_deferred`.
-/

namespace SealedContent

open Workspace (Steps)

/-! ## Computations that fail -/

/-- Whatever was done before, the computation fails. -/
def Fails {α : Type} (action : SessionM α) : Prop := ∀ session, ∃ error, action.result session = .error error

namespace Fails

variable {α β : Type}

theorem throw (error : Error) : Fails (MonadExcept.throw error : SessionM α) := fun _ => ⟨error, rfl⟩

theorem lift {outcome : Except Error α} (fails : outcome.isOk = false) : Fails (liftM outcome : SessionM α) := by
  intro session
  cases outcome with
  | error error => exact ⟨error, rfl⟩
  | ok value => cases fails

theorem first {action : SessionM α} (fails : Fails action) (next : α → SessionM β) : Fails (action >>= next) := by
  intro session
  obtain ⟨error, gives⟩ := fails session
  exact ⟨error, SessionM.result_bind_error gives next⟩

theorem later {action : SessionM α} {next : α → SessionM β} (fails : ∀ value, Fails (next value)) :
    Fails (action >>= next) := by
  intro session
  cases gives : action.result session with
  | error error => exact ⟨error, SessionM.result_bind_error gives next⟩
  | ok value =>
    rw [SessionM.result_bind_ok gives]
    exact fails value _

end Fails

/-! ## Sections -/

theorem SectionHeader.patchData_supplied (header : SectionHeader) (index : Nat) (key : Aes.Block) (start : Nat)
    (raw : Storage) : Supplies (header.patchData index key start raw) := by
  simp only [patchData]
  cases header.patch with
  | none => exact .throw rfl
  | some patch =>
    dsimp only
    split
    · exact .throw_bind rfl _
    · split
      · exact .throw_bind rfl _
      · refine .bind (.lift (raw.window_supplied _ _)) fun tail => ?_
        refine .bind (Storage.read_supplied _ _ _) fun relocationBytes => ?_
        refine .bind (Storage.read_supplied _ _ _) fun subsectionBytes => ?_
        refine .bind (.lift (BucketTree.decode_supplied _ _)) fun relocations => ?_
        refine .bind (.lift (BucketTree.decode_supplied _ _)) fun subsections => ?_
        exact .bind (.lift (raw.window_supplied _ _)) fun front => .pure _

namespace Container

theorem cached_supplied (container : Container) (storage : Storage) : Supplies (container.cached storage) := by
  simp only [cached]
  split
  · exact .pure _
  · exact fun session => .ok _

theorem openRaw_supplied (container : Container) (index : Nat) : Supplied (container.openRaw index) := by
  refine .bind ?_ fun found _ => container.storage.window_supplied _ _
  simp only [sectionAt]
  split
  · exact .ok _
  · exact .error rfl

/-- With everything at hand that a section needs, no key and no container is missing when it is opened. -/
theorem openDecrypted_supplied (index : Nat) : ∀ (bases : List Container) (container : Container),
    container.canOpen index bases = true → Supplies (container.openDecrypted index bases)
  | bases, container, able => by
    unfold canOpen at able
    unfold openDecrypted
    cases there : container.header.section? index with
    | none =>
      rw [there] at able
      cases able
    | some found =>
      obtain ⟨range, header⟩ := found
      simp only [there] at able
      simp only [sectionAt, there, SessionM.lift_ok_bind]
      refine .bind (.lift (container.openRaw_supplied index)) fun raw => ?_
      cases cipher : header.cipher with
      | plain => exact .pure raw
      | ctr =>
        rw [cipher] at able
        exact .bind (.lift (.of_isOk able)) fun key => container.cached_supplied _
      | xts =>
        rw [cipher] at able
        exact .bind (.lift (.of_isOk able)) fun key => container.cached_supplied _
      | generations =>
        rw [cipher] at able
        cases bases with
        | nil => cases able
        | cons base rest =>
          obtain ⟨known, below⟩ := Bool.and_eq_true_iff.mp able
          refine .bind (.lift (.of_isOk known)) fun key => ?_
          refine .bind (header.patchData_supplied index key range.start raw) fun patch => ?_
          exact .bind (openDecrypted_supplied index rest base below) fun patched => container.cached_supplied _
      | unknown code =>
        rw [cipher] at able
        cases able

/-- Without it, opening the section fails. -/
theorem openDecrypted_fails (index : Nat) : ∀ (bases : List Container) (container : Container),
    container.canOpen index bases = false → Fails (container.openDecrypted index bases)
  | bases, container, unable => by
    unfold canOpen at unable
    unfold openDecrypted
    cases there : container.header.section? index with
    | none =>
      simp only [sectionAt, there]
      exact .throw _
    | some found =>
      obtain ⟨range, header⟩ := found
      simp only [there] at unable
      simp only [sectionAt, there, SessionM.lift_ok_bind]
      refine .later fun raw => ?_
      cases cipher : header.cipher with
      | plain =>
        rw [cipher] at unable
        cases unable
      | ctr =>
        rw [cipher] at unable
        exact .first (.lift unable) _
      | xts =>
        rw [cipher] at unable
        exact .first (.lift unable) _
      | generations =>
        rw [cipher] at unable
        cases known : container.keys.ctr.isOk with
        | false => exact .first (.lift known) _
        | true =>
          refine .later fun key => ?_
          cases bases with
          | nil => exact .throw _
          | cons base rest =>
            -- the key is there, so something is missing further down
            dsimp only at unable
            rw [known, Bool.true_and] at unable
            exact .later fun patch => .first (openDecrypted_fails index rest base unable) _
      | unknown code => exact .throw _

/-- A section in plain text needs no key, no cache and no base. -/
theorem openDecrypted_plain {container : Container} {index : Nat} {range : UnitRange} {header : SectionHeader}
    (there : container.sectionAt index = .ok (range, header)) (plain : header.cipher = .plain)
    (bases : List Container) :
    container.openDecrypted index bases = liftM (container.storage.window range.start range.size) := by
  have raw : container.openRaw index = container.storage.window range.start range.size := by
    rw [openRaw, there]
    rfl
  unfold openDecrypted
  simp only [there, raw, SessionM.lift_ok_bind, plain]
  cases container.storage.window range.start range.size <;> rfl

end Container

/-! ## Headers -/

/-- The header of a container, from its bytes and the header key. -/
def ContainerHeader.outcome (key : Except Error Aes.XtsKey) (content : Storage) : Except Error ContainerHeader := do
  if content.size < Envelope.size then throw (.format (.shortContainer content.size))
  let bytes ← content.outcome 0 Envelope.size
  if (ContainerVersion.ofMagic? (Envelope.magic bytes)).isSome then parse bytes false
  else parse (← decryptHeader (← key) bytes) true

theorem ContainerHeader.read_answers {w : Workspace} (sound : w.Sound) {content : Storage}
    (member : content ∈ w.nodes) (ring : KeyRing) :
    Answers (Remembers w.nodes) (read ring content) (outcome ring.headerKey content) := by
  simp only [read, outcome]
  split
  · exact .throw _
  · refine .bind (content.read_answers sound.graph member 0 Envelope.size) fun bytes gives => ?_
    have long : bytes.length = Envelope.size := ByteMap.length_of_window? (outcome_bytes sound.graph member gives)
    split
    · exact ofStorage_answers long false
    · refine .bind (.lift _) fun key _ => .bind (.lift _) fun plain decrypts => ?_
      exact ofStorage_answers (encryptHeader_decryptHeader long decrypts).1 true

/-- What a container is opened as, but for its options. -/
theorem Container.ofStorage_result {w : Workspace} (sound : w.Sound) {content : Storage} (member : content ∈ w.nodes)
    (ring : KeyRing) (options : ReadOptions) : (ofStorage ring content options).result w.session =
      (ContainerHeader.outcome ring.headerKey content).map fun header =>
        ⟨content, header, .resolve header ring, options⟩ := by
  have reads := (ContainerHeader.read_answers sound member ring _ sound.remembers).1
  cases gives : ContainerHeader.outcome ring.headerKey content with
  | error error =>
    rw [gives] at reads
    exact SessionM.result_bind_error reads _
  | ok header =>
    rw [gives] at reads
    exact SessionM.result_bind_ok reads _

/-! ## Missing keys -/

/-- Two ways of opening a section, each in a workspace of its own: both are refused for the same reason, or both give
    a node whose reads agree from then on, whatever is done in between. -/
def OpensAlike (first second : Workspace) (action other : SessionM Storage) : Prop :=
  (∃ error, action.result first.session = .error error ∧ other.result second.session = .error error) ∨
  ∃ opened left right, Opens first action opened left ∧ Opens second other opened right ∧
    ∀ later laterRight, Steps left later → Steps right laterRight → ∀ offset length,
      (opened.read offset length).result later.session = (opened.read offset length).result laterRight.session

theorem opensAlike_window {first second : Workspace} (sound : first.Sound) (soundToo : second.Sound)
    {content : Storage} (member : content ∈ first.nodes) (memberToo : content ∈ second.nodes) (start size : Nat) :
    OpensAlike first second (liftM (content.window start size)) (liftM (content.window start size)) := by
  cases made : content.window start size with
  | error error => exact .inl ⟨error, rfl, rfl⟩
  | ok opened =>
    refine .inr ⟨opened, _, _, ⟨rfl, .step .refl (.slice member made), rfl, .head _⟩,
      ⟨rfl, .step .refl (.slice memberToo made), rfl, .head _⟩, ?_⟩
    intro later laterRight steps stepsRight offset length
    have laterSound := steps.sound (sound.slice member made)
    have rightSound := stepsRight.sound (soundToo.slice memberToo made)
    rw [(opened.read_answers laterSound.graph (steps.nodes_subset _ (.head _)) _ _ _ laterSound.remembers).1,
      (opened.read_answers rightSound.graph (stepsRight.nodes_subset _ (.head _)) _ _ _ rightSound.remembers).1]

/-- With the same header key a container is opened as the same header, or refused for the same reason, whatever other
    keys are known, and its sections in plain text read the same. A section of which a container says that it can be
    opened is never refused because a key or a base is missing, and any other section is refused. -/
theorem missing_keys_deferred {ring other : KeyRing}
    (same : ring.known? ⟨.headerKey, 0⟩ = other.known? ⟨.headerKey, 0⟩) {first second : Workspace}
    (reached : Steps {} first) (reachedToo : Steps {} second) {content : Storage} (member : content ∈ first.nodes)
    (memberToo : content ∈ second.nodes) (options otherOptions : ReadOptions) :
    ((∃ error, (Container.ofStorage ring content options).result first.session = .error error ∧
        (Container.ofStorage other content otherOptions).result second.session = .error error) ∨
      ∃ container otherContainer,
        (Container.ofStorage ring content options).result first.session = .ok container ∧
        (Container.ofStorage other content otherOptions).result second.session = .ok otherContainer ∧
        container.header = otherContainer.header ∧
        ∀ index range header, container.sectionAt index = .ok (range, header) → header.cipher = .plain →
          ∀ bases otherBases left right, Steps first left → Steps second right →
            OpensAlike left right ((Patched.mk container bases).openDecrypted index)
              ((Patched.mk otherContainer otherBases).openDecrypted index)) ∧
    ∀ (patched : Patched) (index : Nat) (session : Session),
      (patched.canOpen index = true → ∀ error, (patched.openDecrypted index).result session = .error error →
        error.isMissing = false) ∧
      (patched.canOpen index = false → ∃ error, (patched.openDecrypted index).result session = .error error) := by
  have sound := Workspace.sound_of_steps reached
  have soundToo := Workspace.sound_of_steps reachedToo
  constructor
  · have sameKey : other.headerKey = ring.headerKey := by
      rw [KeyRing.headerKey, KeyRing.headerKey, KeyRing.xtsKey?, KeyRing.xtsKey?, same]
    rw [Container.ofStorage_result sound member, Container.ofStorage_result soundToo memberToo, sameKey]
    cases ContainerHeader.outcome ring.headerKey content with
    | error error => exact .inl ⟨error, rfl, rfl⟩
    | ok header =>
      refine .inr ⟨_, _, rfl, rfl, rfl, ?_⟩
      intro index range sectionHeader there plain bases otherBases left right steps stepsRight
      have window : ∀ keys options bases, Container.openDecrypted index ⟨content, header, keys, options⟩ bases =
          liftM (content.window range.start range.size) := fun _ _ => Container.openDecrypted_plain there plain
      simp only [Patched.openDecrypted, window]
      exact opensAlike_window (steps.sound sound) (stepsRight.sound soundToo) (steps.nodes_subset _ member)
        (stepsRight.nodes_subset _ memberToo) _ _
  · intro patched index session
    exact ⟨fun able => Container.openDecrypted_supplied index patched.bases patched.top able session,
      fun unable => Container.openDecrypted_fails index patched.bases patched.top unable session⟩

/-! ### A section under a key of the key area -/

/-- Without a key that unwraps content keys, no content key is known. -/
theorem ctr_unknown (header : ContainerHeader) :
    (ContentKeys.resolve header (.withHeaderKey sampleKey)).ctr.isOk = false := by
  have unknown : (KeyRing.withHeaderKey sampleKey).known? ⟨.keyAreaKey header.keyAreaKind, header.generationIndex⟩ =
      none := ContainerPlan.known?_set_of_ne (fun same => by cases same) _
  have area : ∃ error, header.keyAreaKeys (.withHeaderKey sampleKey) = .error error := by
    rw [ContainerHeader.keyAreaKeys, KeyRing.keyAreaKey, KeyRing.block?, unknown]
    exact ⟨_, rfl⟩
  have title : ∃ error, header.titleKey (.withHeaderKey sampleKey) = .error error := by
    simp only [ContainerHeader.titleKey]
    split <;> exact ⟨_, rfl⟩
  simp only [ContentKeys.resolve]
  split
  · obtain ⟨error, gives⟩ := title
    rw [gives]
    rfl
  · obtain ⟨error, gives⟩ := area
    rw [gives]
    rfl

/-- With the header key alone the sample is opened as the same header as with all keys, but its section is refused. -/
theorem missing_keys_deferred_sample : ∃ content container otherContainer,
    (Container.ofStorage (.withHeaderKey sampleKey) content {}).result {} = .ok container ∧
    (Container.ofStorage ContainerPlan.singleRing content {}).result {} = .ok otherContainer ∧
    container.header = otherContainer.header ∧
    (Patched.mk container []).canOpen 0 = false ∧
    (∃ error, ((Patched.mk container []).openDecrypted 0).result {} = .error error) ∧
    (Patched.mk otherContainer []).canOpen 0 = true ∧
    ∀ error, ((Patched.mk otherContainer []).openDecrypted 0).result {} = .error error →
      error.isMissing = false := by
  have described : (ContainerPlan.single .ctr 1 none).DescribedIn ContainerPlan.sampleHeader :=
    ContainerPlan.single_described (by decide) (by decide) rfl (Bytes.length_zeros 0x40) ⟨none, none, rfl, rfl, rfl⟩
  obtain ⟨sealed, -, long, stores⟩ :=
    ContainerPlan.single_stores 1 (ContainerPlan.length_singleSection 3 (Bytes.length_zeros 0x40))
  have short : (sealed ++ ContainerPlan.sampleStored).toArray.size < UInt64.size := by
    rw [List.size_toArray, List.length_append, long, ContainerPlan.length_sampleStored]
    decide
  have reached : Steps {} (({} : Workspace).add (.ofBytes (sealed ++ ContainerPlan.sampleStored))) :=
    .step .refl (.memory short)
  have same : (KeyRing.withHeaderKey sampleKey).known? ⟨.headerKey, 0⟩ =
      ContainerPlan.singleRing.known? ⟨.headerKey, 0⟩ := (ContainerPlan.known?_set_of_ne (by decide) _).symm
  obtain ⟨opened, sections⟩ := missing_keys_deferred same reached reached (.head _) (.head _) {} {}
  obtain ⟨known, gives, -, -, -, follows⟩ := ContainerPlan.opens (Workspace.sound_of_steps reached) (.head _)
    (.ofBytes _) (stores ContainerPlan.sampleStored) described (ContainerPlan.single_known 1 _) {}
  obtain ⟨error, -, refused⟩ | ⟨container, other, keyless, keyed, headers, -⟩ := opened
  · cases refused.symm.trans gives
  obtain rfl : known = other := Except.ok.inj (gives.symm.trans keyed)
  obtain ⟨header, there, cipher, -⟩ := follows.sections 0 ContainerPlan.sampleSection rfl
  have able : (Patched.mk known []).canOpen 0 = true := by
    simp only [Patched.canOpen, Container.canOpen, there, cipher, ContainerPlan.sampleSection, follows.ctr]
    rfl
  have unable : (Patched.mk container []).canOpen 0 = false := by
    obtain ⟨read, -, made⟩ := SessionM.bind_eq_ok keyless
    cases made
    rw [← headers] at there
    simp only [Patched.canOpen, Container.canOpen, there, cipher, ContainerPlan.sampleSection, ctr_unknown]
  exact ⟨_, container, known, keyless, keyed, headers, unable, (sections _ 0 {}).2 unable, able,
    (sections _ 0 {}).1 able⟩

end SealedContent
