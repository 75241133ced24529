import Mathlib.Tactic.Choose
import SealedContent.Proofs.Container.Envelope
import SealedContent.Proofs.Container.Opening

/-! # Containers as they are built

A `ContainerPlan` is what a container is built from: its generations and keys, and where and how each of its
sections is encrypted. `DescribedIn` says which bytes of a header state the plan, and nothing of the other
bytes; `KnownTo` that a ring has the keys which the content keys are wrapped with; `StoresHeader` how the
header stands in an image. Opening such an image gives the keys and the sections of the plan:
`ContainerPlan.opens`.
-/

namespace SealedContent

open Aes (Block XtsKey encryptBlock decryptBlock)

/-! ## Plans -/

/-- A section that is built. -/
structure SectionPlan where
  range : UnitRange
  cipher : SectionCipher
  /-- The upper half of the section's counters. -/
  counter : Nat
  patch : Option PatchLayout

/-- A container that is built. -/
structure ContainerPlan where
  oldGeneration : Nat
  newGeneration : Nat
  keyAreaKind : KeyAreaKind
  /-- Zero if the content keys lie in the key area. -/
  rightsId : RightsId
  xts : XtsKey
  ctr : Block
  /-- The last key of the key area, which no section uses. -/
  spare : Block
  sections : (index : Nat) → Option SectionPlan

/-- A descriptor of a table: where it lies, a magic, and its numbers. One of no bytes describes none. -/
def PatchTable.DescribedIn (bytes : Bytes) : Option PatchTable → Prop
  | none => bytes.fieldAt 8 8 = 0
  | some table => bytes.fieldAt 0 8 = table.region.offset ∧ bytes.fieldAt 8 8 = table.region.size ∧
      table.region.size ≠ 0 ∧ bytes.window 0x10 4 = .ofAscii "BKTR" ∧ bytes.fieldAt 0x14 4 = table.version ∧
      bytes.fieldAt 0x18 4 = table.entries

/-- Two descriptors, of a patch if both describe tables. -/
def PatchLayout.DescribedIn (bytes : Bytes) (layout : Option PatchLayout) : Prop :=
  ∃ relocations subsections, PatchTable.DescribedIn (bytes.window 0 0x20) relocations ∧
    PatchTable.DescribedIn (bytes.window 0x20 0x20) subsections ∧
    layout = relocations.bind fun first => subsections.map fun second => ⟨first, second⟩

/-- The section lies behind the header, and its own header stands at its place under its hash. -/
structure SectionPlan.DescribedIn (planned : SectionPlan) (header : Bytes) (index : Nat) : Prop where
  first : header.fieldAt (0x240 + index * 0x10) 4 = planned.range.first
  last : header.fieldAt (0x244 + index * 0x10) 4 = planned.range.last
  behind : Envelope.size ≤ planned.range.start
  ordered : planned.range.first ≤ planned.range.last
  digest : header.window (0x280 + index * 0x20) 0x20 =
    Sha256.digest (header.window (0x400 + index * 0x200) 0x200)
  hashes : ∃ layout, HashLayout.decode
    (.ofCode (.ofCode (header.fieldAt (0x402 + index * 0x200) 1)) (header.fieldAt (0x403 + index * 0x200) 1))
    (header.window (0x408 + index * 0x200) 0xF8) = .ok layout
  cipher : .ofCode (header.fieldAt (0x404 + index * 0x200) 1) = planned.cipher
  patch : PatchLayout.DescribedIn (header.window (0x500 + index * 0x200) 0x40) planned.patch
  counter : header.fieldAt (0x540 + index * 0x200) 8 = planned.counter

/-- The bytes of a section's range in an image. -/
structure SectionPlan.StandsIn (planned : SectionPlan) (image stored : Bytes) : Prop where
  inside : planned.range.stop ≤ image.length
  stands : image.window planned.range.start planned.range.size = stored

namespace ContainerPlan

variable {plan : ContainerPlan} {header : Bytes} {ring : KeyRing}

/-- The bytes of a header that state the plan. -/
structure DescribedIn (plan : ContainerPlan) (header : Bytes) : Prop where
  length : header.length = Envelope.size
  magic : (ContainerVersion.ofMagic? (Envelope.magic header)).isSome
  oldGeneration : header.fieldAt 0x206 1 = plan.oldGeneration
  keyAreaKind : KeyAreaKind.ofNumber (header.fieldAt 0x207 1) = .ok plan.keyAreaKind
  newGeneration : header.fieldAt 0x220 1 = plan.newGeneration
  rightsId : header.window 0x230 0x10 = plan.rightsId.toBytes
  absent : ∀ index < 4, plan.sections index = none → header.fieldAt (0x240 + index * 0x10) 4 = 0
  present : ∀ index planned, plan.sections index = some planned → index < 4 ∧ planned.DescribedIn header index

/-- The index of the keys of the newer generation, from one on; generation zero shares index zero. -/
def generationIndex (plan : ContainerPlan) : Nat := max plan.oldGeneration plan.newGeneration - 1

/-- The ring has the key that wraps the content keys: those of the key area, or the title key. -/
def KnownTo (plan : ContainerPlan) (ring : KeyRing) (header : Bytes) : Prop :=
  if plan.rightsId.toBytes.isZero then
    ∃ kek, ring.keyAreaKey plan.keyAreaKind plan.generationIndex = .ok kek ∧
      header.window 0x300 0x40 =
        Block.flatten ([plan.xts.data, plan.xts.tweak, plan.ctr, plan.spare].map (encryptBlock kek))
  else
    ∃ kek, ring.titleKek plan.generationIndex = .ok kek ∧
      ring.titleKey plan.rightsId = .ok (encryptBlock kek plan.ctr)

/-- The header stands at the start of an image: in plain text, or encrypted under the header key of the ring
    and then without a magic. -/
def StoresHeader (ring : KeyRing) (header image : Bytes) : Prop :=
  Envelope.size ≤ image.length ∧ (image.take Envelope.size = header ∨
    ∃ key, ring.headerKey = .ok key ∧ encryptHeader key header = .ok (image.take Envelope.size) ∧
      ContainerVersion.ofMagic? (Envelope.magic image) = none)

/-! ## Headers -/

theorem decodeTable {bytes : Bytes} (long : bytes.length = 0x20) {table : Option PatchTable}
    (described : PatchTable.DescribedIn bytes table) : PatchTable.decode? bytes = .ok table := by
  have field : ∀ offset width, offset + width ≤ 0x20 →
      bytes.numberAt offset width = .ok (bytes.fieldAt offset width) :=
    fun offset width inside => Bytes.numberAt_eq (by omega)
  have region : regionAt bytes 0 = .ok ⟨bytes.fieldAt 0 8, bytes.fieldAt 8 8⟩ := by
    rw [regionAt, field 0 8 (by decide), ok_bind, field (0 + 8) 8 (by decide)]
    rfl
  have magic : bytes.bytesAt 0x10 4 = .ok (bytes.window 0x10 4) := Bytes.bytesAt_eq (by omega)
  simp only [PatchTable.decode?, region, magic, field 0x14 4 (by decide), field 0x18 4 (by decide), ok_bind]
  cases table with
  | none =>
    have empty : bytes.fieldAt 8 8 = 0 := described
    rw [if_pos empty]
    rfl
  | some table =>
    obtain ⟨offset, size, nonempty, marked, version, entries⟩ := described
    rw [if_neg (by rw [size]; exact nonempty), if_neg (fun other => other marked), offset, size, version, entries]
    rfl

theorem decodeTables {bytes : Bytes} (long : bytes.length = 0x40) {layout : Option PatchLayout}
    (described : PatchLayout.DescribedIn bytes layout) : PatchLayout.decode? bytes = .ok layout := by
  obtain ⟨relocations, subsections, first, second, rfl⟩ := described
  have firstLong : (bytes.window 0 0x20).length = 0x20 := Bytes.length_window (by omega)
  have secondLong : (bytes.window 0x20 0x20).length = 0x20 := Bytes.length_window (by omega)
  have rest : bytes.drop 0x20 = bytes.window 0x20 0x20 := by
    rw [Bytes.window, List.take_of_length_le (by rw [List.length_drop]; omega)]
  have front : bytes.take 0x20 = bytes.window 0 0x20 := rfl
  simp only [PatchLayout.decode?, front, rest, decodeTable firstLong first, decodeTable secondLong second, ok_bind]
  cases relocations with
  | none => rfl
  | some relocations => cases subsections <;> rfl

/-- The range that a header states for a section. -/
def statedRange (header : Bytes) (index : Nat) : UnitRange :=
  ⟨header.fieldAt (0x240 + index * 0x10) 4, header.fieldAt (0x244 + index * 0x10) 4⟩

theorem DescribedIn.parseRange (described : plan.DescribedIn header) {index : Nat} (inside : index < 4) :
    ContainerHeader.parseRange (header.window (0x240 + index * 0x10) 0x10) = .ok (statedRange header index) := by
  have last : 0x240 + index * 0x10 + 4 = 0x244 + index * 0x10 := by omega
  simp only [ContainerHeader.parseRange, Bytes.fieldAt_window (show 0 + 4 ≤ 0x10 by decide),
    Bytes.fieldAt_window (show 4 + 4 ≤ 0x10 by decide), Nat.add_zero, last]
  rw [if_neg]
  · rfl
  · rintro ⟨present, reversed⟩
    cases planned : plan.sections index with
    | none =>
      have zero := described.absent index inside planned
      rw [zero] at present
      cases present
    | some planned =>
      have stated := (described.present index _ ‹_›).2
      rw [stated.first, stated.last] at reversed
      have := stated.ordered
      omega

theorem statedRange_eq {planned : SectionPlan} {index : Nat} (stated : planned.DescribedIn header index) :
    statedRange header index = planned.range := by
  rw [statedRange, stated.first, stated.last]

theorem isPresent_of_behind {range : UnitRange} (behind : Envelope.size ≤ range.start) : range.isPresent = true := by
  simp only [UnitRange.isPresent, bne_iff_ne, ne_eq]
  intro zero
  rw [UnitRange.start, zero] at behind
  exact absurd behind (by decide)

theorem parse_planned (long : header.length = Envelope.size) {planned : SectionPlan} {index : Nat} (inside : index < 4)
    (stated : planned.DescribedIn header index) :
    ∃ sectionHeader, SectionHeader.parse (header.window (0x400 + index * 0x200) 0x200) = .ok sectionHeader ∧
      sectionHeader.cipher = planned.cipher ∧ sectionHeader.patch = planned.patch ∧
      sectionHeader.counter = planned.counter := by
  have place : ∀ offset, 0x400 + index * 0x200 + offset = 0x400 + offset + index * 0x200 := by omega
  obtain ⟨layout, hashes⟩ := stated.hashes
  simp only [Envelope.size] at long
  have patch := decodeTables (Bytes.length_window (by omega)) stated.patch
  simp only [SectionHeader.parse, Bytes.fieldAt_window, Bytes.window_window, Nat.reduceAdd, Nat.reduceLeDiff, place,
    hashes, patch, stated.cipher, stated.counter]
  exact ⟨_, rfl, rfl, rfl, rfl⟩

theorem DescribedIn.parseSection (described : plan.DescribedIn header) {index : Nat} (inside : index < 4) :
    ∃ parsed, ContainerHeader.parseSection header index (statedRange header index)
        (header.window (0x280 + index * 0x20) 0x20) = .ok parsed ∧
      ∀ planned, plan.sections index = some planned → statedRange header index = planned.range ∧
        ∃ sectionHeader, parsed = some sectionHeader ∧ sectionHeader.cipher = planned.cipher ∧
          sectionHeader.patch = planned.patch ∧ sectionHeader.counter = planned.counter := by
  cases planned : plan.sections index with
  | none =>
    have absent : (statedRange header index).isPresent = false := by
      rw [statedRange, described.absent index inside planned]
      rfl
    refine ⟨none, ?_, nofun⟩
    simp only [ContainerHeader.parseSection, absent]
    rfl
  | some found =>
    have stated := (described.present index found planned).2
    obtain ⟨sectionHeader, parsed, cipher, patch, counter⟩ := parse_planned described.length inside stated
    refine ⟨some sectionHeader, ?_, ?_⟩
    · simp only [ContainerHeader.parseSection, statedRange_eq stated, isPresent_of_behind stated.behind]
      rw [if_neg (by decide), if_neg (fun other => other stated.digest.symm)]
      show SectionHeader.parse (header.window (0x400 + index * 0x200) 0x200) >>= _ = _
      rw [parsed]
      rfl
    · rintro _ ⟨⟩
      exact ⟨statedRange_eq stated, sectionHeader, rfl, cipher, patch, counter⟩

/-- What a header says that is read, as far as a plan states it. -/
structure StatedBy (read : ContainerHeader) (plan : ContainerPlan) (header : Bytes) : Prop where
  generation : read.generation = max plan.oldGeneration plan.newGeneration
  keyAreaKind : read.keyAreaKind = plan.keyAreaKind
  rightsId : read.rightsId = plan.rightsId
  keyArea : read.keyArea = (List.range 4).map fun i => .ofBytes (header.window (0x300 + i * 0x10) 0x10)
  sections : ∀ index planned, plan.sections index = some planned →
    ∃ sectionHeader, read.section? index = some (planned.range, sectionHeader) ∧
      sectionHeader.cipher = planned.cipher ∧ sectionHeader.patch = planned.patch ∧
      sectionHeader.counter = planned.counter

theorem DescribedIn.parse (described : plan.DescribedIn header) (encrypted : Bool) :
    ∃ read, ContainerHeader.parse header encrypted = .ok read ∧ StatedBy read plan header := by
  obtain ⟨version, known⟩ := Option.isSome_iff_exists.mp described.magic
  have magic : ContainerHeader.parseVersion (header.window 0x200 4) = .ok version := by
    simp only [ContainerHeader.parseVersion]
    rw [show ContainerVersion.ofMagic? (header.window 0x200 4) = some version from known]
  have ranges : ((List.range 4).mapM fun i => ContainerHeader.parseRange (header.window (0x240 + i * 0x10) 0x10)) =
      .ok ((List.range 4).map (statedRange header)) :=
    mapM_ok fun index member => described.parseRange (List.mem_range.mp member)
  have all := fun index (inside : index < 4) => described.parseSection inside
  choose! parsed gives stated using all
  have sections : ContainerHeader.parseSections header 0 (((List.range 4).map (statedRange header)).zip
      (ContainerHeader.digestsOf header)) = .ok ((List.range 4).map parsed) := by
    rw [ContainerHeader.digestsOf, List.zip_map', List.range_eq_range']
    refine (ContainerHeader.parseSections_ok fun i inside => ?_).trans (by rw [List.length_map, List.length_range'])
    rw [List.length_map, List.length_range'] at inside
    simp only [List.getElem_map, List.getElem_range', Nat.zero_add, Nat.one_mul]
    exact gives i inside
  refine ⟨_, ContainerHeader.parse_eq_ok_iff.mpr
    ⟨version, plan.keyAreaKind, _, _, magic, described.keyAreaKind, ranges, sections, rfl⟩, ?_⟩
  refine ⟨?_, rfl, ?_, rfl, fun index planned found => ?_⟩
  · show max (header.fieldAt 0x206 1) (header.fieldAt 0x220 1) = _
    rw [described.oldGeneration, described.newGeneration]
  · show Block.ofBytes (header.window 0x230 0x10) = _
    rw [described.rightsId, Block.ofBytes_toBytes]
  · have inside := (described.present index planned found).1
    obtain ⟨range, sectionHeader, same, fields⟩ := stated index inside planned found
    refine ⟨sectionHeader, ?_, fields⟩
    have there : ∀ {α : Type} (f : Nat → α), ((List.range 4).map f)[index]? = some (f index) := by
      intro α f
      rw [List.getElem?_map, List.getElem?_range inside]
      rfl
    simp only [ContainerHeader.section?, ContainerHeader.assemble]
    rw [there, there, same, range]
    rfl

/-! ## Keys -/

theorem generationIndex_eq {read : ContainerHeader} (stated : StatedBy read plan header) :
    read.generationIndex = plan.generationIndex := by
  rw [ContainerHeader.generationIndex, stated.generation, generationIndex]

theorem hasRightsId_eq {read : ContainerHeader} (stated : StatedBy read plan header) :
    read.hasRightsId = !plan.rightsId.toBytes.isZero := by
  rw [ContainerHeader.hasRightsId, stated.rightsId]

theorem blocks_eq {blocks : List Block} {start : Nat}
    (made : header.window start (blocks.length * 0x10) = Block.flatten blocks) :
    ((List.range blocks.length).map fun i => Block.ofBytes (header.window (start + i * 0x10) 0x10)) = blocks := by
  apply List.ext_getElem (by simp)
  intro i _ inside
  have piece := @Bytes.window_flatten 0x10 (blocks.map Block.toBytes) (by simp) i (by simpa using inside)
  have within : (header.window start (blocks.length * 0x10)).window (i * 0x10) 0x10 =
      header.window (start + i * 0x10) 0x10 := Bytes.window_window (by omega)
  rw [List.getElem_map, List.getElem_range, ← within, made, Block.flatten, List.flatMap_def, piece,
    List.getElem_map, Block.ofBytes_toBytes]

/-- The content keys are unwrapped again. A container with a rights ID has no XTS key. -/
theorem KnownTo.resolve (known : plan.KnownTo ring header) {read : ContainerHeader}
    (stated : StatedBy read plan header) :
    (ContentKeys.resolve read ring).ctr = .ok plan.ctr ∧
      (plan.rightsId.toBytes.isZero = true → (ContentKeys.resolve read ring).xts = .ok plan.xts) := by
  simp only [KnownTo] at known
  cases zero : plan.rightsId.toBytes.isZero with
  | true =>
    rw [zero, if_pos rfl] at known
    obtain ⟨kek, found, wrapped⟩ := known
    have absent : read.hasRightsId = false := by rw [hasRightsId_eq stated, zero]; rfl
    have area : read.keyArea = [plan.xts.data, plan.xts.tweak, plan.ctr, plan.spare].map (encryptBlock kek) :=
      stated.keyArea.trans (@blocks_eq header (_ :: _ :: _ :: [_]) 0x300 wrapped)
    have keys : read.keyAreaKeys ring = .ok [plan.xts.data, plan.xts.tweak, plan.ctr, plan.spare] := by
      simp only [ContainerHeader.keyAreaKeys, stated.keyAreaKind, generationIndex_eq stated, found, area]
      show Except.ok (List.map (decryptBlock kek) _) = _
      simp only [List.map_cons, List.map_nil, Aes.decryptBlock_encryptBlock]
    simp only [ContentKeys.resolve, absent, keys]
    exact ⟨rfl, fun _ => rfl⟩
  | false =>
    rw [zero, if_neg (by decide)] at known
    obtain ⟨kek, foundKek, foundKey⟩ := known
    have present : read.hasRightsId = true := by rw [hasRightsId_eq stated, zero]; rfl
    have key : read.titleKey ring = .ok plan.ctr := by
      simp only [ContainerHeader.titleKey, present, stated.rightsId, generationIndex_eq stated, foundKek, foundKey]
      exact congrArg Except.ok (Aes.decryptBlock_encryptBlock kek plan.ctr)
    simp only [ContentKeys.resolve, present, if_true, key]
    exact ⟨trivial, nofun⟩

/-! ## Opening -/

/-- A container that was opened from what the plan builds. -/
structure Follows (plan : ContainerPlan) (container : Container) : Prop where
  ctr : container.keys.ctr = .ok plan.ctr
  xts : plan.rightsId.toBytes.isZero = true → container.keys.xts = .ok plan.xts
  sections : ∀ index planned, plan.sections index = some planned →
    ∃ sectionHeader, container.header.section? index = some (planned.range, sectionHeader) ∧
      sectionHeader.cipher = planned.cipher ∧ sectionHeader.patch = planned.patch ∧
      sectionHeader.counter = planned.counter

/-- The header of an image is read as it was before it was stored. -/
theorem StoresHeader.read {image : Bytes} (stores : StoresHeader ring header image)
    (described : plan.DescribedIn header) {content : Storage} {session : Session}
    (enough : Envelope.size ≤ content.size)
    (gives : (content.read 0 Envelope.size).result session = .ok (image.take Envelope.size)) :
    ∃ encrypted, (ContainerHeader.read ring content).result session = ContainerHeader.parse header encrypted ∧
      (ContainerHeader.read ring content).after session = (content.read 0 Envelope.size).after session := by
  obtain ⟨long, plain | ⟨key, known, seals, unmarked⟩⟩ := stores
  · rw [plain] at gives
    exact ⟨false, ContainerHeader.read_plain enough described.length gives described.magic⟩
  · obtain ⟨sealedLong, decrypts⟩ := decryptHeader_encryptHeader described.length seals
    have kept : Envelope.magic (image.take Envelope.size) = Envelope.magic image := Bytes.window_take (by decide)
    exact ⟨true, ContainerHeader.read_sealed enough sealedLong gives (by rw [kept, unmarked]) known decrypts⟩

/-- An image that was built by a plan is opened as what it was built from. -/
theorem opens {w : Workspace} (sound : w.Sound) {content : Storage} (member : content ∈ w.nodes) {image : Bytes}
    (holds : content.Holds image) (stores : StoresHeader ring header image) (described : plan.DescribedIn header)
    (known : plan.KnownTo ring header) (options : ReadOptions) :
    ∃ container, (Container.ofStorage ring content options).result w.session = .ok container ∧
      Workspace.Steps w (w.left (Container.ofStorage ring content options)) ∧
      container.storage = content ∧ container.options = options ∧ plan.Follows container := by
  have enough : Envelope.size ≤ content.size := by rw [holds.size]; exact stores.1
  have gives : (content.read 0 Envelope.size).result w.session = .ok (image.take Envelope.size) :=
    holds.read sound member (by rw [Nat.zero_add]; exact stores.1)
  obtain ⟨encrypted, result, after⟩ := stores.read described enough gives
  obtain ⟨read, parsed, stated⟩ := described.parse encrypted
  rw [parsed] at result
  obtain ⟨ctr, xts⟩ := known.resolve stated
  refine ⟨_, SessionM.result_bind_ok result _, ?_, rfl, rfl, ctr, xts, stated.sections⟩
  -- all that a container reads when it is opened is its header, in one piece
  have same : w.left (Container.ofStorage ring content options) = w.left (content.read 0 Envelope.size) := by
    have left : (Container.ofStorage ring content options).after w.session = _ := SessionM.after_bind_ok result _
    rw [Workspace.left, left, SessionM.after_pure, after]
    rfl
  rw [same]
  exact .step .refl (.read member 0 Envelope.size)

/-- What an opened container knows of its header is what the header says. -/
theorem StoresHeader.parsed {image : Bytes} (stores : StoresHeader ring header image)
    (described : plan.DescribedIn header) {w : Workspace} (sound : w.Sound) {content : Storage}
    (member : content ∈ w.nodes) (holds : content.Holds image) {options : ReadOptions} {container : Container}
    (opened : (Container.ofStorage ring content options).result w.session = .ok container) :
    ∃ encrypted, ContainerHeader.parse header encrypted = .ok container.header := by
  have gives : (content.read 0 Envelope.size).result w.session = .ok (image.take Envelope.size) :=
    holds.read sound member (by rw [Nat.zero_add]; exact stores.1)
  obtain ⟨encrypted, result, -⟩ := stores.read described (by rw [holds.size]; exact stores.1) gives
  obtain ⟨read, reads, made⟩ := SessionM.bind_eq_ok opened
  cases made
  exact ⟨encrypted, result.symm.trans reads⟩

end ContainerPlan

end SealedContent
