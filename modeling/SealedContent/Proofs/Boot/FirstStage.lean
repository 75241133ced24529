import SealedContent.Boot.FirstStage
import SealedContent.Proofs.Aes.Closed
import SealedContent.Proofs.Boot.KeyTrial
import SealedContent.Proofs.Container.Opening
import SealedContent.Proofs.Keys.Stages
import SealedContent.Proofs.Storage.Failures
import SealedContent.Proofs.Storage.Parsing

/-! # Sealed first stage packages are opened again

A blob that stands encrypted in an image is found with the generation of its key, and its sections read as the blob
has them: `FirstStage.recovers_sealed`. A key is judged by four bytes only, and no section has to be refused once the
package is opened.
-/

namespace SealedContent

open Workspace (Steps)

/-- The place of a section among those of the header. -/
def FirstStageSection.number : FirstStageSection → Nat
  | warmboot => 0
  | bootloader => 1
  | secureMonitor => 2

namespace FirstStage

variable {ring : KeyRing} {storage content : Storage} {generation : Nat} {key counter : Aes.Block}
  {stored blob encrypted : Bytes} {part : FirstStageSection} {package : FirstStage}

/-! ## Blobs -/

/-- Where a blob states that a section lies. -/
def stated (blob : Bytes) (part : FirstStageSection) : Region where
  offset := headerSize + blob.fieldAt (8 + part.number * 8) 4
  size := blob.fieldAt (4 + part.number * 8) 4

def hasMagic (blob : Bytes) : Bool := blob.take 4 == Bytes.ofAscii "PK11"

/-- All sections of a blob end inside it. -/
def Encloses (blob : Bytes) : Prop :=
  ∀ part, (stated blob part).offset + (stated blob part).size ≤ blob.length

/-- A blob with its magic and the sections that it states. -/
structure WellFormed (blob : Bytes) : Prop where
  long : headerSize ≤ blob.length
  magic : hasMagic blob = true
  encloses : Encloses blob

/-- The package of a blob. -/
def opened (generation : Nat) (counter : Aes.Block) (blob : Bytes) : FirstStage :=
  ⟨generation, counter, blob, stated blob⟩

theorem regionAt_eq_ok_iff {region : Region} : regionAt blob part.number = .ok region ↔
    (stated blob part).offset + (stated blob part).size ≤ blob.length ∧ region = stated blob part := by
  constructor
  · intro gives
    obtain ⟨size, found, gives⟩ := ok_of_bind gives
    obtain ⟨offset, placed, gives⟩ := ok_of_bind gives
    obtain ⟨-, rfl⟩ := Bytes.numberAt_eq_ok_iff.mp found
    obtain ⟨-, rfl⟩ := Bytes.numberAt_eq_ok_iff.mp placed
    split at gives
    · cases gives
    · next inside =>
      cases gives
      exact ⟨Nat.le_of_not_lt inside, rfl⟩
  · rintro ⟨inside, rfl⟩
    have few : part.number < 3 := by cases part <;> decide
    -- a section starts behind the header, so that the header is there
    have header : 0x20 + blob.fieldAt (8 + part.number * 8) 4 + blob.fieldAt (4 + part.number * 8) 4 ≤ blob.length :=
      inside
    rw [regionAt, Bytes.numberAt_eq (by omega), Bytes.numberAt_eq (by omega), ok_bind, ok_bind]
    exact if_neg (Nat.not_lt_of_le inside)

/-- A package is made where a known key yields the magic and all sections lie inside the blob. -/
theorem ofEncrypted_eq_ok_iff : ofEncrypted ring counter encrypted = .ok package ↔
    ∃ generation key, ring.oldestOpening .package1Key (fun key => hasMagic (Aes.ctr key counter encrypted))
        .firstStageKeys = .ok (generation, key) ∧
      Encloses (Aes.ctr key counter encrypted) ∧
      package = opened generation counter (Aes.ctr key counter encrypted) := by
  have judged : (fun key => hasMagic (Aes.ctr key counter encrypted)) =
      fun key => Aes.ctr key counter (encrypted.take 4) == .ofAscii "PK11" :=
    funext fun key => by rw [hasMagic, Aes.take_ctr]
  rw [ofEncrypted, judged]
  constructor
  · intro gives
    obtain ⟨⟨generation, key⟩, trial, gives⟩ := ok_of_bind gives
    obtain ⟨warmboot, first, gives⟩ := ok_of_bind gives
    obtain ⟨bootloader, second, gives⟩ := ok_of_bind gives
    obtain ⟨secureMonitor, third, gives⟩ := ok_of_bind gives
    obtain ⟨firstInside, rfl⟩ := (@regionAt_eq_ok_iff _ .warmboot _).mp first
    obtain ⟨secondInside, rfl⟩ := (@regionAt_eq_ok_iff _ .bootloader _).mp second
    obtain ⟨thirdInside, rfl⟩ := (@regionAt_eq_ok_iff _ .secureMonitor _).mp third
    cases gives
    refine ⟨generation, key, trial, fun part => ?_,
      congrArg (FirstStage.mk generation counter _) (funext fun part => ?_)⟩
    · cases part with
      | warmboot => exact firstInside
      | bootloader => exact secondInside
      | secureMonitor => exact thirdInside
    · cases part <;> rfl
  · rintro ⟨generation, key, trial, encloses, rfl⟩
    have first := (@regionAt_eq_ok_iff _ .warmboot _).mpr ⟨encloses _, rfl⟩
    have second := (@regionAt_eq_ok_iff _ .bootloader _).mpr ⟨encloses _, rfl⟩
    have third := (@regionAt_eq_ok_iff _ .secureMonitor _).mpr ⟨encloses _, rfl⟩
    simp only [FirstStageSection.number] at first second third
    simp only [trial, first, second, third, ok_bind]
    refine congrArg (fun region => Except.ok (FirstStage.mk generation counter _ region)) (funext fun part => ?_)
    cases part <;> rfl

theorem regionAt_supplied (blob : Bytes) (number : Nat) : Supplied (regionAt blob number) := by
  refine .bind (blob.numberAt_supplied _ _) fun size _ => .bind (blob.numberAt_supplied _ _) fun offset _ => ?_
  split
  · exact .bind (.error rfl) nofun
  · exact .ok _

/-- Without a known key the first one is missing, and nothing else that fails is a missing key. -/
theorem ofEncrypted_eq_missing_iff {name : String} {kind : KeyKind} :
    ofEncrypted ring counter encrypted = .error (.missingKey name kind) ↔
      name = "package1_key_00" ∧ kind = .common ∧ ∀ generation, ring.block? .package1Key generation = none := by
  have unknown : (∀ generation, ring.block? .package1Key generation = none) ↔
      ∀ generation < generationCount, ring.block? .package1Key generation = none := by
    refine ⟨fun none generation _ => none generation, fun none generation => ?_⟩
    cases known : ring.block? .package1Key generation with
    | none => rfl
    | some key => exact absurd (known.symm.trans (none generation (KeyRing.lt_generationCount rfl known))) nofun
  rw [unknown, show ("package1_key_00" : String) = Slot.name ⟨.package1Key, 0⟩ by decide,
    ← KeyRing.oldestOpening_eq_missing_iff, ofEncrypted]
  exact Supplied.bind_eq_error_iff_first rfl fun found => .bind (regionAt_supplied _ _) fun _ _ =>
    .bind (regionAt_supplied _ _) fun _ _ => .bind (regionAt_supplied _ _) fun _ _ => .ok _

/-! ## Images -/

/-- A blob stands in an image under a key, with its size and its counter in front of it. -/
structure SealedIn (stored : Bytes) (key counter : Aes.Block) (blob : Bytes) : Prop where
  sized : stored.fieldAt sizeOffset 4 = blob.length
  counted : stored.window counterOffset 0x10 = counter.toBytes
  inside : blobOffset + blob.length ≤ stored.length
  stands : stored.window blobOffset blob.length = Aes.ctr key counter blob

/-- An image with a blob, and other bytes around it. -/
def image (front gap : Bytes) (key counter : Aes.Block) (blob after : Bytes) : Bytes :=
  front ++ LittleEndian.encode 4 blob.length ++ gap ++ counter.toBytes ++ Aes.ctr key counter blob ++ after

theorem length_image (front gap : Bytes) (key counter : Aes.Block) (blob after : Bytes) :
    (image front gap key counter blob after).length =
      front.length + 4 + gap.length + 0x10 + blob.length + after.length := by
  simp only [image, List.length_append, LittleEndian.length_encode, Aes.Block.length_toBytes, Aes.ctr, Aes.length_ctrAt]

theorem sealedIn_image {front gap : Bytes} (key counter : Aes.Block) (after : Bytes)
    (frontLong : front.length = sizeOffset) (gapLong : gap.length = 0xC) (short : blob.length < 256 ^ 4) :
    SealedIn (image front gap key counter blob after) key counter blob := by
  have size := Bytes.window_between front (LittleEndian.encode 4 blob.length)
    (gap ++ (counter.toBytes ++ (Aes.ctr key counter blob ++ after)))
  have counted := Bytes.window_between (front ++ LittleEndian.encode 4 blob.length ++ gap) counter.toBytes
    (Aes.ctr key counter blob ++ after)
  have stands := Bytes.window_between (front ++ LittleEndian.encode 4 blob.length ++ gap ++ counter.toBytes)
    (Aes.ctr key counter blob) after
  simp only [List.length_append, LittleEndian.length_encode, Aes.Block.length_toBytes, frontLong, gapLong, Aes.ctr,
    Aes.length_ctrAt, ← List.append_assoc] at size counted stands
  refine ⟨?_, counted, ?_, stands⟩
  · rw [Bytes.fieldAt, image, Aes.ctr, size, LittleEndian.decode_encode, Nat.mod_eq_of_lt short]
  · rw [length_image, frontLong, gapLong]
    exact Nat.le_add_right _ _

/-- What an image is opened to, whatever was read before. -/
def outcome (ring : KeyRing) (storage : Storage) : Except Error FirstStage := do
  let size := LittleEndian.decode (← storage.outcome sizeOffset 4)
  let counter := Aes.Block.ofBytes (← storage.outcome counterOffset 0x10)
  if size < headerSize then throw (.format (.firstStageSize size))
  ofEncrypted ring counter (← storage.outcome blobOffset size)

theorem ofStorage_answers {nodes : List Storage} (graph : Coherent nodes) (member : storage ∈ nodes)
    (ring : KeyRing) : Answers (Remembers nodes) (ofStorage ring storage) (outcome ring storage) := by
  refine (storage.read_answers graph member sizeOffset 4).bind fun field _ => ?_
  refine (storage.read_answers graph member counterOffset 0x10).bind fun counter _ => ?_
  dsimp only
  split
  · exact .throw _
  · exact (storage.read_answers graph member blobOffset _).bind fun encrypted _ => .lift _

/-- The size, the counter and the blob of an image can be read, and the blob has room for a header. -/
def Legible (storage : Storage) (session : Session) : Prop :=
  ∃ field counter encrypted, (storage.read sizeOffset 4).result session = .ok field ∧
    (storage.read counterOffset 0x10).result session = .ok counter ∧ headerSize ≤ LittleEndian.decode field ∧
    (storage.read blobOffset (LittleEndian.decode field)).result session = .ok encrypted

/-- A key is missing exactly where a blob was read and no key is known. -/
theorem missing_iff {w : Workspace} (sound : w.Sound) (member : content ∈ w.nodes) {name : String} {kind : KeyKind} :
    (ofStorage ring content).result w.session = .error (.missingKey name kind) ↔
      name = "package1_key_00" ∧ kind = .common ∧ Legible content w.session ∧
        ∀ generation, ring.block? .package1Key generation = none := by
  have reads (offset length : Nat) :
      (content.read offset length).result w.session = content.outcome offset length :=
    (content.read_answers sound.graph member offset length _ sound.remembers).1
  have supplied (offset length : Nat) : Supplied (content.outcome offset length) :=
    reads offset length ▸ content.read_supplied offset length w.session
  rw [(ofStorage_answers sound.graph member ring _ sound.remembers).1]
  simp only [Legible, reads]
  constructor
  · intro fails
    obtain ⟨field, size, fails⟩ := (Supplied.bind_eq_error_iff rfl (supplied _ _)).mp fails
    obtain ⟨counter, counted, fails⟩ := (Supplied.bind_eq_error_iff rfl (supplied _ _)).mp fails
    dsimp only at fails
    split at fails
    · cases fails
    · next long =>
      obtain ⟨encrypted, blob, fails⟩ := (Supplied.bind_eq_error_iff rfl (supplied _ _)).mp fails
      obtain ⟨named, common, none⟩ := ofEncrypted_eq_missing_iff.mp fails
      exact ⟨named, common, ⟨field, counter, encrypted, size, counted, Nat.le_of_not_lt long, blob⟩, none⟩
  · rintro ⟨rfl, rfl, ⟨field, counter, encrypted, size, counted, long, blob⟩, none⟩
    simp only [outcome, size, counted, ok_bind, if_neg (Nat.not_lt_of_le long), blob]
    exact ofEncrypted_eq_missing_iff.mpr ⟨rfl, rfl, none⟩

theorem legible_iff {w : Workspace} (sound : w.Sound) (member : content ∈ w.nodes) (holds : content.Holds stored) :
    Legible content w.session ↔
      blobOffset + stored.fieldAt sizeOffset 4 ≤ stored.length ∧ headerSize ≤ stored.fieldAt sizeOffset 4 := by
  constructor
  · rintro ⟨field, counter, encrypted, size, -, long, blob⟩
    have found (offset length : Nat) {bytes : Bytes}
        (gives : (content.read offset length).result w.session = .ok bytes) :
        offset + length ≤ stored.length ∧ bytes = stored.window offset length := by
      by_cases inside : offset + length ≤ stored.length
      · rw [holds.read sound member inside] at gives
        exact ⟨inside, by cases gives; rfl⟩
      · rw [holds.read_outside sound member (Nat.lt_of_not_le inside)] at gives
        cases gives
    obtain ⟨-, rfl⟩ := found _ _ size
    exact ⟨(found _ _ blob).1, long⟩
  · rintro ⟨inside, long⟩
    have far : blobOffset ≤ stored.length := by omega
    refine ⟨_, _, _, holds.read sound member (Nat.le_trans (by decide) far),
      holds.read sound member (Nat.le_trans (by decide) far), long, holds.read sound member inside⟩

/-! ## Opening -/

theorem outcome_sealed {nodes : List Storage} (graph : Coherent nodes) (member : content ∈ nodes)
    (holds : content.Holds stored) (stands : SealedIn stored key counter blob) (wellFormed : WellFormed blob)
    (known : ring.block? .package1Key generation = some key)
    (older : ∀ lower < generation, ∀ other, ring.block? .package1Key lower = some other →
      hasMagic (Aes.ctr other counter (Aes.ctr key counter blob)) = false) :
    outcome ring content = .ok (opened generation counter blob) := by
  have far : blobOffset ≤ stored.length := Nat.le_trans (Nat.le_add_right _ _) stands.inside
  have early : sizeOffset + 4 ≤ stored.length ∧ counterOffset + 0x10 ≤ stored.length :=
    ⟨Nat.le_trans (by decide) far, Nat.le_trans (by decide) far⟩
  have size := holds.outcome graph member early.1
  have counted := holds.outcome graph member early.2
  have encrypted := holds.outcome graph member stands.inside
  have stated : LittleEndian.decode (stored.window sizeOffset 4) = blob.length := stands.sized
  rw [stands.counted] at counted
  rw [stands.stands] at encrypted
  simp only [outcome, size, counted, ok_bind, stated, if_neg (Nat.not_lt_of_le wellFormed.long), encrypted,
    Aes.Block.ofBytes_toBytes]
  have plain : Aes.ctr key counter (Aes.ctr key counter blob) = blob := Aes.ctrAt_ctrAt ..
  refine ofEncrypted_eq_ok_iff.mpr ⟨generation, key, ?_, by rw [plain]; exact wellFormed.encloses, by rw [plain]⟩
  refine KeyRing.oldestOpening_eq_ok_iff.mpr ⟨KeyRing.lt_generationCount rfl known, known, ?_, older⟩
  rw [plain]
  exact wellFormed.magic

/-- All sections of a package are opened, and they are windows inside the blob. -/
def Contained (package : FirstStage) : Prop :=
  ∀ part, headerSize ≤ (package.region part).offset ∧
    (package.region part).offset + (package.region part).size ≤ package.blob.length ∧
    ∃ cut, package.openSection part = .ok cut ∧
      cut.Holds (package.blob.window (package.region part).offset (package.region part).size)

theorem openSection_holds (inside : (package.region part).offset + (package.region part).size ≤ package.blob.length) :
    ∃ cut, package.openSection part = .ok cut ∧
      cut.Holds (package.blob.window (package.region part).offset (package.region part).size) := by
  have holds : package.storage.Holds package.blob := .ofBytes _
  obtain ⟨cut, made⟩ := window_ok (by rwa [← holds.size] at inside)
  exact ⟨cut, made, holds.window made⟩

/-- Whatever is opened has all of its sections. -/
theorem contained {session : Session} (gives : (ofStorage ring storage).result session = .ok package) :
    package.Contained := by
  obtain ⟨field, -, gives⟩ := SessionM.bind_eq_ok gives
  obtain ⟨counter, -, gives⟩ := SessionM.bind_eq_ok gives
  dsimp only at gives
  split at gives
  · cases gives
  · obtain ⟨encrypted, -, gives⟩ := SessionM.bind_eq_ok gives
    obtain ⟨generation, key, -, encloses, rfl⟩ := ofEncrypted_eq_ok_iff.mp gives
    exact fun part => ⟨Nat.le_add_right _ _, encloses part, openSection_holds (encloses part)⟩

/-- The blob and the sections of a package are opened at any time. -/
theorem opened_opensTo {w : Workspace} (sound : w.Sound) (short : package.blob.length < UInt64.size)
    (contained : package.Contained) :
    OpensTo w (pure package.storage) package.blob ∧
    ∀ part, OpensTo w (liftM (package.openSection part))
      (package.blob.window (package.region part).offset (package.region part).size) := by
  have step : Workspace.Steps w (w.add package.storage) := .step .refl (.ofBytes short)
  have blob : Opens w (pure package.storage) package.storage (w.add package.storage) := ⟨rfl, step, rfl, .head _⟩
  refine ⟨blob.opensTo sound (.ofBytes _), fun part => ?_⟩
  obtain ⟨-, inside, cut, gives, holds⟩ := contained part
  have opens : Opens w (liftM (package.openSection part)) cut ((w.add package.storage).add cut) :=
    ⟨gives, .step step (.slice (.head _) gives), rfl, .head _⟩
  exact opens.opensTo sound holds

/-- A package that was sealed is opened with the generation of its key, if no older known key yields the magic, and its
    blob and sections are read as they were sealed. Whatever is opened has its sections inside the blob. A key is
    missing exactly where a blob can be read, with a header at least, and no key is known. -/
theorem recovers_sealed :
    (∀ {w : Workspace} {content : Storage} {ring : KeyRing} {generation : Nat} {key counter : Aes.Block}
      {stored blob : Bytes}, Steps {} w → content ∈ w.nodes → content.readAll.result w.session = .ok stored →
      SealedIn stored key counter blob → WellFormed blob → ring.block? .package1Key generation = some key →
      (∀ lower < generation, ∀ other, ring.block? .package1Key lower = some other →
        hasMagic (Aes.ctr other counter (Aes.ctr key counter blob)) = false) →
      ∃ package, (ofStorage ring content).result w.session = .ok package ∧ package.generation = generation ∧
        package.counter = counter ∧ ∀ later, Steps (w.left (ofStorage ring content)) later →
          OpensTo later (pure package.storage) blob ∧
          ∀ part, OpensTo later (liftM (package.openSection part))
            (blob.window (headerSize + blob.fieldAt (8 + part.number * 8) 4)
              (blob.fieldAt (4 + part.number * 8) 4))) ∧
    (∀ {ring : KeyRing} {storage : Storage} {session : Session} {package : FirstStage},
      (ofStorage ring storage).result session = .ok package → package.Contained) ∧
    (∀ {w : Workspace} {content : Storage}, Steps {} w → content ∈ w.nodes → ∀ (ring : KeyRing) (name : String)
      (kind : KeyKind), (ofStorage ring content).result w.session = .error (.missingKey name kind) ↔
        name = "package1_key_00" ∧ kind = .common ∧ Legible content w.session ∧
          ∀ generation, ring.block? .package1Key generation = none) ∧
    (∀ {w : Workspace} {content : Storage} {stored : Bytes}, Steps {} w → content ∈ w.nodes →
      content.readAll.result w.session = .ok stored → (Legible content w.session ↔
        blobOffset + stored.fieldAt sizeOffset 4 ≤ stored.length ∧ headerSize ≤ stored.fieldAt sizeOffset 4)) := by
  refine ⟨?_, contained, ?_, ?_⟩
  · intro w content ring generation key counter stored blob reached member reads stands wellFormed known older
    have sound := Workspace.sound_of_steps reached
    have holds := Storage.Holds.of_readAll reached member reads
    obtain ⟨gives, remembers⟩ := ofStorage_answers sound.graph member ring _ sound.remembers
    rw [outcome_sealed sound.graph member holds stands wellFormed known older] at gives
    refine ⟨_, gives, rfl, rfl, fun later steps => ?_⟩
    have left : (w.left (ofStorage ring content)).Sound := ⟨sound.graph, remembers⟩
    have short : blob.length < UInt64.size := by
      have whole := sound.graph.size_lt content member
      rw [holds.size] at whole
      exact Nat.lt_of_le_of_lt (Nat.le_trans (Nat.le_add_left _ _) stands.inside) whole
    exact opened_opensTo (steps.sound left) short (contained gives)
  · intro w content reached member ring name kind
    exact missing_iff (Workspace.sound_of_steps reached) member
  · intro w content stored reached member reads
    have sound := Workspace.sound_of_steps reached
    exact legible_iff sound member (Storage.Holds.of_readAll reached member reads)

/-! ### A package of two sections between other bytes -/

/-- Two bytes and one, and an empty section between them. -/
def sampleBlob : Bytes :=
  Bytes.ofAscii "PK11" ++ [2, 0, 0, 0, 0, 0, 0, 0, 0, 0, 0, 0, 2, 0, 0, 0, 1, 0, 0, 0, 2, 0, 0, 0] ++
    Bytes.zeros 4 ++ [7, 8, 9]

def sampleKey : Aes.Block := .ofNat 5

/-- A key of an older generation that does not fit. -/
def olderKey : Aes.Block := .ofNat 6

def sampleCounter : Aes.Block := .ofNat 7

def sampleRing : KeyRing := (KeyRing.empty.setBlock .package1Key 1 olderKey).setBlock .package1Key 2 sampleKey

def sampleImage : Bytes := image (.zeros sizeOffset) (.zeros 0xC) sampleKey sampleCounter sampleBlob [0]

theorem sample_known (generation : Nat) : sampleRing.block? .package1Key generation =
    if generation = 2 then some sampleKey else if generation = 1 then some olderKey else none := by
  rw [sampleRing, KeyRing.block?_setBlock (by decide) (by decide), KeyRing.block?_setBlock (by decide) (by decide)]
  rfl

theorem recovers_sealed_sample :
    let content := Storage.ofBytes sampleImage
    let w := Workspace.add {} content
    Steps {} w ∧ content ∈ w.nodes ∧ content.readAll.result w.session = .ok sampleImage ∧
    SealedIn sampleImage sampleKey sampleCounter sampleBlob ∧ WellFormed sampleBlob ∧
    sampleRing.block? .package1Key 2 = some sampleKey ∧
    (∀ lower < 2, ∀ other, sampleRing.block? .package1Key lower = some other →
      hasMagic (Aes.ctr other sampleCounter (Aes.ctr sampleKey sampleCounter sampleBlob)) = false) ∧
    (∃ package, (ofStorage sampleRing content).result w.session = .ok package ∧ package.generation = 2 ∧
      package.Contained ∧
      OpensTo (w.left (ofStorage sampleRing content)) (pure package.storage) sampleBlob ∧
      OpensTo (w.left (ofStorage sampleRing content)) (liftM (package.openSection .secureMonitor)) [9]) ∧
    (ofStorage .empty content).result w.session = .error (.missingKey "package1_key_00" .common) := by
  intro content w
  have stands : SealedIn sampleImage sampleKey sampleCounter sampleBlob :=
    sealedIn_image _ _ _ List.length_replicate List.length_replicate (by decide)
  have wellFormed : WellFormed sampleBlob :=
    ⟨by decide, by decide, fun part => by cases part <;> decide⟩
  have small : sampleImage.length < UInt64.size := by
    rw [sampleImage, length_image, Bytes.zeros, Bytes.zeros, List.length_replicate, List.length_replicate]
    decide
  have reached : Steps {} w := .step .refl (.ofBytes small)
  have member : content ∈ w.nodes := .head _
  have reads : content.readAll.result w.session = .ok sampleImage := readAll_ofBytes _ _
  have known : sampleRing.block? .package1Key 2 = some sampleKey := by rw [sample_known, if_pos rfl]
  have older : ∀ lower < 2, ∀ other, sampleRing.block? .package1Key lower = some other →
      hasMagic (Aes.ctr other sampleCounter (Aes.ctr sampleKey sampleCounter sampleBlob)) = false := by
    intro lower earlier other present
    rw [sample_known, if_neg (Nat.ne_of_lt earlier)] at present
    split at present
    · cases present
      simp only [Aes.ctr, Aes.ctrAt, Aes.keystream_eq_by]
      decide +kernel
    · cases present
  obtain ⟨opens, encloses, lacks, legible⟩ := recovers_sealed
  obtain ⟨package, gives, oldest, -, each⟩ := opens reached member reads stands wellFormed known older
  obtain ⟨blob, sections⟩ := each _ .refl
  refine ⟨reached, member, reads, stands, wellFormed, known, older,
    ⟨package, gives, oldest, encloses gives, blob, sections .secureMonitor⟩, ?_⟩
  refine (lacks reached member .empty _ _).mpr ⟨rfl, rfl, (legible reached member reads).mpr ?_, fun _ => rfl⟩
  rw [stands.sized]
  exact ⟨stands.inside, wellFormed.long⟩

end FirstStage

end SealedContent
