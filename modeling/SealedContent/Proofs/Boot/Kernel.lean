import SealedContent.Boot.Kernel
import SealedContent.Proofs.Aes.Closed
import SealedContent.Proofs.Boot.KeyTrial
import SealedContent.Proofs.Container.Opening
import SealedContent.Proofs.Keys.Stages
import SealedContent.Proofs.Storage.Parsing

/-! # Sealed kernel packages are opened again

`KernelPackage.image` is the package of a header and four sections under a key. From any storage that gives its bytes
it is opened with the generation of the key, and its sections read as they were sealed: `KernelPackage.opens_sealed`.
-/

namespace SealedContent

open Workspace (Steps)

/-! ## Headers -/

namespace KernelHeader

/-- A header under its key. What follows the signature is encrypted under the counter in front of it, which stays as
    it is. -/
def encrypt (key : Aes.Block) (plain : Bytes) : Bytes :=
  let counter := plain.window signatureSize 0x10
  let body := Aes.ctr key (.ofBytes counter) (plain.window signatureSize (size - signatureSize))
  plain.take signatureSize ++ counter ++ body.drop 0x10

/-- What a header of full length states about one of its sections. -/
def statedSection (plain : Bytes) (number : Nat) : KernelSection where
  counter := .ofBytes (plain.window (0x110 + number * 0x10) 0x10)
  size := plain.fieldAt (0x160 + number * 4) 4
  address := plain.fieldAt (0x170 + number * 4) 4
  digest := plain.window (0x180 + number * 0x20) 0x20

/-- What a header of full length states. -/
def stated (plain : Bytes) : KernelHeader where
  counter := .ofBytes (plain.window signatureSize 0x10)
  baseOffset := plain.fieldAt 0x154 4
  versionMax := plain.fieldAt 0x15C 1
  versionMin := plain.fieldAt 0x15D 1
  sections := (List.range sectionCount).map (statedSection plain)

variable {key : Aes.Block} {plain : Bytes}

theorem decode_eq (long : plain.length = size) : decode plain = .ok (stated plain) := by
  have sections : (List.range sectionCount).mapM (sectionAt plain) =
      .ok ((List.range sectionCount).map (statedSection plain)) := by
    refine mapM_ok fun number member => ?_
    have small : number < 4 := List.mem_range.mp member
    simp only [sectionAt, size] at long ⊢
    rw [Bytes.bytesAt_eq (by omega), Bytes.numberAt_eq (by omega), Bytes.numberAt_eq (by omega),
      Bytes.bytesAt_eq (by omega)]
    rfl
  simp only [decode, size, signatureSize] at long ⊢
  rw [Bytes.bytesAt_eq (by omega), Bytes.numberAt_eq (by omega), Bytes.numberAt_eq (by omega),
    Bytes.numberAt_eq (by omega), sections]
  rfl

/-- The body of a header does not depend on what stands in the place of the counter. -/
theorem drop_ctr (key counter : Aes.Block) (data : Bytes) (count : Nat) :
    (Aes.ctr key counter data).drop count = Aes.ctrAt key counter count (data.drop count) := by
  apply List.ext_getElem?
  intro i
  rw [List.getElem?_drop, Aes.ctr, Aes.getElem?_ctrAt, Aes.getElem?_ctrAt, List.getElem?_drop, Nat.zero_add]

theorem length_encrypt (long : plain.length = size) : (encrypt key plain).length = size := by
  simp only [encrypt, size, signatureSize] at long ⊢
  rw [List.length_append, List.length_append, List.length_drop, Aes.ctr, Aes.length_ctrAt,
    Bytes.length_window (by omega), Bytes.length_window (by omega), List.length_take]
  omega

theorem decrypt_encrypt (long : plain.length = size) : decrypt key (encrypt key plain) = plain := by
  simp only [size] at long
  have body : plain.window signatureSize (size - signatureSize) = plain.drop signatureSize :=
    List.take_of_length_le (by simp only [List.length_drop, long, size, signatureSize]; decide)
  have signature : (plain.take signatureSize).length = signatureSize := by
    rw [List.length_take, long]
    rfl
  have counter : (plain.window signatureSize 0x10).length = 0x10 :=
    Bytes.length_window (by rw [long]; decide)
  simp only [encrypt, body]
  generalize same : plain.window signatureSize 0x10 = field at counter
  rw [decrypt]
  -- the counter stands where it stood, so that the keystream is the same
  have found : ∀ rest, Bytes.window (plain.take signatureSize ++ field ++ rest) signatureSize 0x10 = field := by
    intro rest
    have between := Bytes.window_between (plain.take signatureSize) field rest
    rwa [signature, counter] at between
  simp only [found]
  simp only [List.append_assoc]
  rw [List.take_left' signature, List.drop_left' signature, drop_ctr, List.drop_left' counter, drop_ctr,
    Aes.ctrAt_ctrAt, ← same, Bytes.window, List.take_append_drop, List.take_append_drop]

/-! ### Where the sections start -/

variable {parts : List KernelSection} {pieces : List Bytes}

theorem foldl_size (sized : List.Forall₂ (fun part piece => piece.length = part.size) parts pieces) (start : Nat) :
    parts.foldl (fun offset part => offset + part.size) start = start + pieces.flatten.length := by
  induction sized generalizing start with
  | nil => rfl
  | cons same _ inductionHypothesis =>
    rw [List.foldl_cons, inductionHypothesis, List.flatten_cons, List.length_append, same, Nat.add_assoc]

/-- A section starts behind the header and the sections before it. -/
theorem sectionStart_eq {header : KernelHeader}
    (sized : List.Forall₂ (fun part piece => piece.length = part.size) header.sections pieces) (index : Nat) :
    header.sectionStart index = size + (pieces.take index).flatten.length :=
  foldl_size (List.forall₂_take index sized) size

theorem sectionStart_succ {header : KernelHeader} {index : Nat} {part : KernelSection}
    (there : header.sections[index]? = some part) :
    header.sectionStart (index + 1) = header.sectionStart index + part.size := by
  rw [sectionStart, List.take_add_one, there, List.foldl_append]
  rfl

theorem sectionStart_mono (header : KernelHeader) : Monotone header.sectionStart := by
  refine monotone_nat_of_le_succ fun index => ?_
  cases there : header.sections[index]? with
  | some part =>
    rw [sectionStart_succ there]
    exact Nat.le_add_right _ _
  | none =>
    have all := List.getElem?_eq_none_iff.mp there
    rw [sectionStart, sectionStart, List.take_of_length_le all, List.take_of_length_le (Nat.le_succ_of_le all)]

theorem length_sections {plain : Bytes} {header : KernelHeader} (decodes : decode plain = .ok header) :
    header.sections.length = sectionCount := by
  obtain ⟨_, -, decodes⟩ := ok_of_bind decodes
  obtain ⟨_, -, decodes⟩ := ok_of_bind decodes
  obtain ⟨_, -, decodes⟩ := ok_of_bind decodes
  obtain ⟨_, -, decodes⟩ := ok_of_bind decodes
  obtain ⟨sections, each, decodes⟩ := ok_of_bind decodes
  cases decodes
  rw [← (mapM_eq_ok_iff.mp each).length_eq, List.length_range]

end KernelHeader

/-! ## Packages -/

namespace KernelPackage

open KernelHeader (encrypt decrypt stated hasMagic)

/-- The sections under their counters. -/
def sealedSections (key : Aes.Block) (plain : Bytes) (sections : List Bytes) : List Bytes :=
  (stated plain).sections.zipWith (fun part data => Aes.ctr key part.counter data) sections

/-- The package of a header and its sections under a key. -/
def image (key : Aes.Block) (plain : Bytes) (sections : List Bytes) : Bytes :=
  encrypt key plain ++ (sealedSections key plain sections).flatten

/-- A header in plain text, and four sections of the sizes that it states. -/
structure Fits (plain : Bytes) (sections : List Bytes) : Prop where
  long : plain.length = KernelHeader.size
  magic : hasMagic plain = true
  sized : List.Forall₂ (fun part data => data.length = part.size) (stated plain).sections sections

instance (plain : Bytes) (sections : List Bytes) : Decidable (Fits plain sections) :=
  decidable_of_iff (plain.length = KernelHeader.size ∧ hasMagic plain = true ∧
      List.Forall₂ (fun part data => data.length = part.size) (stated plain).sections sections)
    ⟨fun ⟨long, magic, sized⟩ => ⟨long, magic, sized⟩, fun ⟨long, magic, sized⟩ => ⟨long, magic, sized⟩⟩

variable {plain after : Bytes} {sections : List Bytes} {key : Aes.Block} {index : Nat} {data : Bytes}

theorem Fits.sealed (fits : Fits plain sections) (key : Aes.Block) :
    List.Forall₂ (fun part piece => piece.length = part.size) (stated plain).sections
      (sealedSections key plain sections) := by
  obtain ⟨-, -, sized⟩ := fits
  rw [sealedSections]
  generalize (stated plain).sections = parts at sized
  induction sized with
  | nil => exact .nil
  | cons same _ inductionHypothesis => exact .cons ((Aes.length_ctrAt ..).trans same) inductionHypothesis

/-- A section under its counter stands where the header has it. -/
theorem Fits.stands (fits : Fits plain sections) (key : Aes.Block) (after : Bytes)
    (there : sections[index]? = some data) : ∃ part, (stated plain).sections[index]? = some part ∧
      (stated plain).sectionStart index + part.size ≤ (image key plain sections ++ after).length ∧
      Bytes.window (image key plain sections ++ after) ((stated plain).sectionStart index) part.size =
        Aes.ctr key part.counter data := by
  have inside := (List.getElem?_eq_some_iff.mp there).1
  have listed := fits.sized.length_eq ▸ inside
  have part := List.getElem?_eq_getElem listed
  generalize (stated plain).sections[index] = found at part
  have sized := fits.sized.get listed inside
  rw [List.get_eq_getElem, List.get_eq_getElem, (List.getElem?_eq_some_iff.mp part).2,
    (List.getElem?_eq_some_iff.mp there).2] at sized
  have piece : (sealedSections key plain sections)[index]? = some (Aes.ctr key found.counter data) := by
    rw [sealedSections, List.getElem?_zipWith, part, there]
  -- the sections before it and behind it
  obtain ⟨among, same⟩ := List.getElem?_eq_some_iff.mp piece
  have split : image key plain sections ++ after =
      encrypt key plain ++ ((sealedSections key plain sections).take index).flatten ++ Aes.ctr key found.counter data ++
        (((sealedSections key plain sections).drop (index + 1)).flatten ++ after) := by
    rw [image]
    conv_lhs => rw [← List.take_append_drop index (sealedSections key plain sections),
      List.drop_eq_getElem_cons among, same, List.flatten_append, List.flatten_cons]
    simp only [List.append_assoc]
  have start : (stated plain).sectionStart index =
      (encrypt key plain ++ ((sealedSections key plain sections).take index).flatten).length := by
    rw [KernelHeader.sectionStart_eq (fits.sealed key), List.length_append, KernelHeader.length_encrypt fits.long]
  have long : (Aes.ctr key found.counter data).length = found.size := (Aes.length_ctrAt ..).trans sized
  refine ⟨found, part, ?_⟩
  rw [split, start, ← long]
  exact ⟨Bytes.length_between .., Bytes.window_between ..⟩

/-! ## Opening -/

/-- The package that is opened from an image. -/
def opened (content : Storage) (generation : Nat) (key : Aes.Block) (plain : Bytes) : KernelPackage :=
  ⟨content, generation, key, stated plain, encrypt key plain⟩

variable {content : Storage} {ring : KeyRing} {generation : Nat}

theorem ofStorage_answers {nodes : List Storage} (graph : Coherent nodes) (member : content ∈ nodes)
    (fits : Fits plain sections) (holds : content.Holds (image key plain sections ++ after))
    (known : ring.block? .package2Key generation = some key)
    (older : ∀ lower < generation, ∀ other, ring.block? .package2Key lower = some other →
      hasMagic (decrypt other (encrypt key plain)) = false) :
    Answers (Remembers nodes) (ofStorage ring content) (.ok (opened content generation key plain)) := by
  have long : (encrypt key plain).length = KernelHeader.size := KernelHeader.length_encrypt fits.long
  have front : Bytes.window (image key plain sections ++ after) 0 KernelHeader.size = encrypt key plain := by
    rw [image, List.append_assoc, Bytes.window_append_first _ long]
  have read := holds.answers graph member (show 0 + KernelHeader.size ≤ (image key plain sections ++ after).length by
    rw [image, List.length_append, List.length_append, long]
    omega)
  rw [front] at read
  have trial : ring.oldestOpening .package2Key (fun other => hasMagic (decrypt other (encrypt key plain))) .kernelKeys =
      .ok (generation, key) := by
    refine KeyRing.oldestOpening_eq_ok_iff.mpr ⟨KeyRing.lt_generationCount rfl known, known, ?_, older⟩
    rw [KernelHeader.decrypt_encrypt fits.long]
    exact fits.magic
  refine read.step ?_
  dsimp only
  rw [trial]
  dsimp only [SessionM.lift_ok_bind]
  rw [KernelHeader.decrypt_encrypt fits.long, KernelHeader.decode_eq fits.long]
  -- the sections end where the image does
  have ends : (stated plain).sectionStart KernelHeader.sectionCount ≤ content.size := by
    have four : (sealedSections key plain sections).length ≤ KernelHeader.sectionCount := by
      rw [← (fits.sealed key).length_eq]
      simp [stated]
    rw [KernelHeader.sectionStart_eq (fits.sealed key), List.take_of_length_le four, holds.size, image,
      List.length_append, List.length_append, long]
    omega
  dsimp only [SessionM.lift_ok_bind]
  rw [if_neg (Nat.not_lt_of_le ends)]
  exact .pure _

/-- A section of the package is opened as its data. -/
theorem openSection_holds (fits : Fits plain sections) (holds : content.Holds (image key plain sections ++ after))
    (there : sections[index]? = some data) :
    ∃ part cut, (stated plain).sections[index]? = some part ∧
      content.window ((stated plain).sectionStart index) part.size = .ok cut ∧
      (opened content generation key plain).openSection index = .ok (.decrypt cut (.ctr key part.counter)) ∧
      (Storage.decrypt cut (.ctr key part.counter)).Holds data := by
  obtain ⟨part, found, inside, stands⟩ := fits.stands key after there
  obtain ⟨cut, made⟩ := window_ok (by rwa [← holds.size] at inside)
  have whole := (holds.window made).ctr key part.counter
  rw [stands, Aes.ctr, Aes.ctr, Aes.ctrAt_ctrAt] at whole
  refine ⟨part, cut, found, made, ?_, whole⟩
  simp only [openSection, sectionAt, opened, found, ok_bind, made]
  rfl

/-- A section is opened to its data, and verified by the digest that the header has for them. -/
theorem section_opensTo {w : Workspace} (sound : w.Sound) (member : content ∈ w.nodes) (fits : Fits plain sections)
    (holds : content.Holds (image key plain sections ++ after)) (there : sections[index]? = some data) :
    OpensTo w (liftM ((opened content generation key plain).openSection index)) data ∧
    ∃ part, (stated plain).sections[index]? = some part ∧
      ((opened content generation key plain).verifySection index).result w.session =
        .ok (if Sha256.digest data = part.digest then .valid else .invalid) := by
  obtain ⟨part, cut, found, made, gives, whole⟩ := @openSection_holds _ _ _ _ _ _ _ generation fits holds there
  let last := (w.add cut).add (.decrypt cut (.ctr key part.counter))
  have steps : Steps w last := .step (.step .refl (.slice member made)) (.decrypt (.head _) trivial trivial)
  have opens : Opens w (liftM ((opened content generation key plain).openSection index))
      (.decrypt cut (.ctr key part.counter)) last :=
    ⟨gives, steps, rfl, .head _⟩
  refine ⟨opens.opensTo sound whole, part, found, ?_⟩
  have read : (Storage.decrypt cut (.ctr key part.counter)).readAll.result w.session = .ok data :=
    whole.readAll (w := last) (steps.sound sound) (.head _)
  have listed : (opened content generation key plain).sectionAt index = .ok part := by
    simp only [sectionAt, opened, found]
  simp only [verifySection, listed, gives, SessionM.lift_ok_bind]
  rw [SessionM.result_bind_ok read]
  split
  · rfl
  · rfl

/-- The windows of the sections of a package follow one another from the header on, inside the storage, and all of them
    are opened. -/
def Consecutive (package : KernelPackage) (storage : Storage) : Prop :=
  package.header.sectionStart 0 = KernelHeader.size ∧ ∀ index < KernelHeader.sectionCount, ∃ part cut,
    package.header.sections[index]? = some part ∧
    storage.window (package.header.sectionStart index) part.size = .ok cut ∧
    package.openSection index = .ok (.decrypt cut (.ctr package.key part.counter)) ∧
    package.header.sectionStart (index + 1) = package.header.sectionStart index + part.size ∧
    package.header.sectionStart (index + 1) ≤ storage.size

theorem consecutive {storage : Storage} {session : Session} {package : KernelPackage}
    (gives : (ofStorage ring storage).result session = .ok package) : package.Consecutive storage := by
  obtain ⟨stored, -, gives⟩ := SessionM.bind_eq_ok gives
  obtain ⟨⟨generation, key⟩, -, gives⟩ := SessionM.bind_eq_ok gives
  obtain ⟨header, decodes, gives⟩ := SessionM.bind_eq_ok gives
  dsimp only at gives
  split at gives
  · cases gives
  · next fits =>
    cases gives
    refine ⟨rfl, fun index small => ?_⟩
    obtain ⟨part, there⟩ : ∃ part, header.sections[index]? = some part :=
      ⟨_, List.getElem?_eq_getElem (by rw [KernelHeader.length_sections decodes]; exact small)⟩
    have next := KernelHeader.sectionStart_succ there
    have within := Nat.le_trans (header.sectionStart_mono small) (Nat.le_of_not_lt fits)
    obtain ⟨cut, made⟩ := window_ok (next ▸ within)
    refine ⟨part, cut, there, made, ?_, next, within⟩
    simp only [openSection, sectionAt, there, ok_bind, made]
    rfl

/-- A package that was sealed is opened with the generation of its key, if no older known key seems to fit, and its
    sections are read and verified as they were sealed. Whatever is opened has four sections one behind the other. -/
theorem opens_sealed :
    (∀ {w : Workspace} {content : Storage} {ring : KeyRing} {generation : Nat} {key : Aes.Block}
      {plain after : Bytes} {sections : List Bytes}, Steps {} w → content ∈ w.nodes →
      content.readAll.result w.session = .ok (image key plain sections ++ after) → Fits plain sections →
      ring.block? .package2Key generation = some key →
      (∀ lower < generation, ∀ other, ring.block? .package2Key lower = some other →
        hasMagic (decrypt other (encrypt key plain)) = false) →
      ∃ package, (ofStorage ring content).result w.session = .ok package ∧ package.generation = generation ∧
        package.header = stated plain ∧
        ∀ index data, sections[index]? = some data → ∀ later, Steps (w.left (ofStorage ring content)) later →
          OpensTo later (liftM (package.openSection index)) data ∧
          ∃ part, (stated plain).sections[index]? = some part ∧ (package.verifySection index).result later.session =
            .ok (if Sha256.digest data = part.digest then .valid else .invalid)) ∧
    (∀ {ring : KeyRing} {storage : Storage} {session : Session} {package : KernelPackage},
      (ofStorage ring storage).result session = .ok package → package.Consecutive storage) := by
  refine ⟨?_, consecutive⟩
  intro w content ring generation key plain after sections reached member reads fits known older
  have sound := Workspace.sound_of_steps reached
  have holds := Storage.Holds.of_readAll reached member reads
  obtain ⟨gives, remembers⟩ :=
    ofStorage_answers sound.graph member fits holds known older _ sound.remembers
  refine ⟨_, gives, rfl, rfl, fun index data there later steps => ?_⟩
  have left : (w.left (ofStorage ring content)).Sound := ⟨sound.graph, remembers⟩
  exact section_opensTo (steps.sound left) (steps.nodes_subset _ member) fits holds there

/-! ### A package of two sections with something behind it -/

/-- Sizes of two and one, and empty sections beside them. -/
def sampleHeader : Bytes :=
  Bytes.zeros 0x150 ++ Bytes.ofAscii "PK21" ++ Bytes.zeros 0xC ++
    [2, 0, 0, 0, 0, 0, 0, 0, 1, 0, 0, 0, 0, 0, 0, 0] ++ Bytes.zeros 0x90

def sampleSections : List Bytes := [[7, 8], [], [9], []]

def sampleKey : Aes.Block := .ofNat 5

/-- A key of an older generation that does not fit. -/
def olderKey : Aes.Block := .ofNat 6

def sampleRing : KeyRing := (KeyRing.empty.setBlock .package2Key 1 olderKey).setBlock .package2Key 2 sampleKey

theorem sample_known (generation : Nat) : sampleRing.block? .package2Key generation =
    if generation = 2 then some sampleKey else if generation = 1 then some olderKey else none := by
  rw [sampleRing, KeyRing.block?_setBlock (by decide) (by decide), KeyRing.block?_setBlock (by decide) (by decide)]
  rfl

theorem opens_sealed_sample :
    let stored := image sampleKey sampleHeader sampleSections ++ [0]
    let content := Storage.ofBytes stored
    let w := Workspace.add {} content
    Steps {} w ∧ content ∈ w.nodes ∧ content.readAll.result w.session = .ok stored ∧
    Fits sampleHeader sampleSections ∧ sampleRing.block? .package2Key 2 = some sampleKey ∧
    (∀ lower < 2, ∀ other, sampleRing.block? .package2Key lower = some other →
      hasMagic (decrypt other (encrypt sampleKey sampleHeader)) = false) ∧
    ∃ package, (ofStorage sampleRing content).result w.session = .ok package ∧ package.generation = 2 ∧
      OpensTo (w.left (ofStorage sampleRing content)) (liftM (package.openSection 2)) [9] ∧
      package.Consecutive content := by
  intro stored content w
  obtain ⟨small, fits⟩ : stored.length < UInt64.size ∧ Fits sampleHeader sampleSections := by decide +kernel
  have reached : Steps {} w := .step .refl (.memory (by rwa [List.size_toArray]))
  have member : content ∈ w.nodes := .head _
  have reads : content.readAll.result w.session = .ok stored := readAll_ofBytes _ _
  have known : sampleRing.block? .package2Key 2 = some sampleKey := by rw [sample_known, if_pos rfl]
  have older : ∀ lower < 2, ∀ other, sampleRing.block? .package2Key lower = some other →
      hasMagic (decrypt other (encrypt sampleKey sampleHeader)) = false := by
    intro lower earlier other present
    rw [sample_known, if_neg (Nat.ne_of_lt earlier)] at present
    split at present
    · cases present
      simp only [decrypt, encrypt, Aes.ctr, Aes.ctrAt, Aes.keystream_eq_by]
      decide +kernel
    · cases present
  obtain ⟨package, read, oldest, -, each⟩ := opens_sealed.1 reached member reads fits known older
  exact ⟨reached, member, reads, fits, known, older, package, read, oldest, (each 2 [9] rfl _ .refl).1,
    opens_sealed.2 read⟩

end KernelPackage

end SealedContent
