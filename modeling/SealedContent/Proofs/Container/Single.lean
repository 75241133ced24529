import SealedContent.Proofs.Container.Plan

/-! # Containers of one section

`ContainerPlan.single` is a plan of a single section behind the header, with the keys in the key area, and
`singleHeader` a header that states it: `single_described`, `single_known`, `single_stores`.
-/

namespace SealedContent.ContainerPlan

open Aes (Block encryptBlock)

/-! ## The plan -/

/-- A plan of one section of some media units behind the header. -/
def single (cipher : SectionCipher) (units : Nat) (patch : Option PatchLayout) : ContainerPlan where
  oldGeneration := 0
  newGeneration := 3
  keyAreaKind := .application
  rightsId := .zero
  xts := ⟨.ofNat 3, .ofNat 4⟩
  ctr := .ofNat 5
  spare := .zero
  sections index := if index = 0 then some ⟨⟨6, 6 + units⟩, cipher, 7, patch⟩ else none

def singleKek : Block := .ofNat 6

/-- A ring that knows the header key and the key of the key area. -/
def singleRing : KeyRing := (KeyRing.withHeaderKey sampleKey).set ⟨.keyAreaKey .application, 2⟩ singleKek.toBytes

def singleKeyArea : Bytes :=
  Block.flatten ([(.ofNat 3 : Block), .ofNat 4, .ofNat 5, .zero].map (encryptBlock singleKek))

/-- The header of a section without hashes. -/
def singleSection (code : Nat) (patch : Bytes) : Bytes :=
  LittleEndian.encode 2 2 ++ (LittleEndian.encode 1 1 ++ (LittleEndian.encode 1 1 ++
    (LittleEndian.encode 1 code ++ (Bytes.zeros 0xFB ++ (patch ++ (LittleEndian.encode 8 7 ++ Bytes.zeros 0xB8))))))

/-- A header that states the plan and holds the header of its section. -/
def singleHeader (units : Nat) (stated : Bytes) : Bytes :=
  Bytes.zeros 0x200 ++ (sampleBlock ++ (Bytes.zeros 0x10 ++ (LittleEndian.encode 1 3 ++ (Bytes.zeros 0xF ++
    (Bytes.zeros 0x10 ++ (LittleEndian.encode 4 6 ++ (LittleEndian.encode 4 (6 + units) ++ (Bytes.zeros 0x38 ++
    (Sha256.digest stated ++ (Bytes.zeros 0x60 ++ (singleKeyArea ++ (Bytes.zeros 0xC0 ++
    (stated ++ Bytes.zeros 0x600)))))))))))))

/-! ## Lengths -/

@[simp] theorem length_sampleBlock : sampleBlock.length = 0x10 := by decide

@[simp] theorem length_singleKeyArea : singleKeyArea.length = 0x40 := Aes.length_flatten _

variable {units code : Nat} {stated patch : Bytes} {cipher : SectionCipher} {layout : Option PatchLayout}

theorem length_singleSection (code : Nat) (long : patch.length = 0x40) :
    (singleSection code patch).length = SectionHeader.size := by
  simp [singleSection, long, SectionHeader.size]

theorem length_singleHeader (units : Nat) (long : stated.length = SectionHeader.size) :
    (singleHeader units stated).length = Envelope.size := by
  simp [singleHeader, Sha256.length_digest, long, Envelope.size, SectionHeader.size]

/-! ## What the header states -/

theorem section_singleHeader (long : stated.length = SectionHeader.size) :
    (singleHeader units stated).window 0x400 SectionHeader.size = stated := by
  simp [singleHeader, Bytes.window_append_of_le, Bytes.window_append_first, Sha256.length_digest, long]

theorem window_singleHeader (long : stated.length = SectionHeader.size) {offset length : Nat}
    (inside : offset + length ≤ SectionHeader.size) :
    (singleHeader units stated).window (0x400 + offset) length = stated.window offset length := by
  rw [← Bytes.window_window inside, section_singleHeader long]

theorem block_singleHeader (units : Nat) (stated : Bytes) :
    (singleHeader units stated).window Envelope.magicOffset Aes.blockSize = sampleBlock := by
  simp [singleHeader, Envelope.magicOffset, Aes.blockSize, Bytes.window_append_of_le, Bytes.window_append_first]

/-- The bytes behind the magic, up to where the generation stands. -/
theorem window_block_singleHeader (units : Nat) (stated : Bytes) {offset length : Nat}
    (inside : offset + length ≤ Aes.blockSize) :
    (singleHeader units stated).window (Envelope.magicOffset + offset) length = sampleBlock.window offset length := by
  rw [← Bytes.window_window inside, block_singleHeader]

theorem magic_singleHeader (units : Nat) (stated : Bytes) :
    Envelope.magic (singleHeader units stated) = sampleBlock.window 0 4 := by
  rw [Envelope.magic, ← Nat.add_zero Envelope.magicOffset, window_block_singleHeader units stated (by decide)]

/-- What the header of a section states. -/
structure StatesSection (stated : Bytes) (cipher : SectionCipher) (layout : Option PatchLayout) : Prop where
  length : stated.length = SectionHeader.size
  hashes : ∃ hashes, HashLayout.decode (.ofCode (.ofCode (stated.fieldAt 2 1)) (stated.fieldAt 3 1))
    (stated.window 8 0xF8) = .ok hashes
  cipher : .ofCode (stated.fieldAt 4 1) = cipher
  patch : PatchLayout.DescribedIn (stated.window 0x100 0x40) layout
  counter : stated.fieldAt 0x140 8 = 7

theorem StatesSection.described (states : StatesSection stated cipher layout) (small : units < 0x100) :
    SectionPlan.DescribedIn ⟨⟨6, 6 + units⟩, cipher, 7, layout⟩ (singleHeader units stated) 0 := by
  have within := @window_singleHeader units _ states.length
  have field : ∀ {offset width}, offset + width ≤ SectionHeader.size →
      (singleHeader units stated).fieldAt (0x400 + offset) width = stated.fieldAt offset width := by
    intro offset width inside
    rw [Bytes.fieldAt, within inside, ← Bytes.fieldAt]
  constructor
  case first => simp [singleHeader, Bytes.fieldAt_append_of_le, Bytes.fieldAt_encode]
  case last =>
    have last : (singleHeader units stated).fieldAt 0x244 4 = (6 + units) % 256 ^ 4 := by
      simp [singleHeader, Bytes.fieldAt_append_of_le, Bytes.fieldAt_encode]
    rw [Nat.zero_mul, Nat.add_zero, last]
    exact Nat.mod_eq_of_lt (by omega)
  case behind => simp [Envelope.size, UnitRange.start, mediaBytes, mediaUnit]
  case ordered => exact Nat.le_add_right 6 units
  case digest =>
    have whole : (singleHeader units stated).window 0x400 0x200 = stated := section_singleHeader states.length
    rw [Nat.zero_mul, Nat.add_zero, Nat.add_zero, whole]
    simp [singleHeader, Bytes.window_append_of_le, Bytes.window_append_first, Sha256.length_digest]
  case hashes =>
    rw [Nat.zero_mul, Nat.add_zero, Nat.add_zero, Nat.add_zero, field (show 2 + 1 ≤ SectionHeader.size by decide),
      field (show 3 + 1 ≤ SectionHeader.size by decide), within (show 8 + 0xF8 ≤ SectionHeader.size by decide)]
    exact states.hashes
  case cipher =>
    rw [Nat.zero_mul, Nat.add_zero, field (show 4 + 1 ≤ SectionHeader.size by decide)]
    exact states.cipher
  case patch =>
    rw [Nat.zero_mul, Nat.add_zero, within (show 0x100 + 0x40 ≤ SectionHeader.size by decide)]
    exact states.patch
  case counter =>
    rw [Nat.zero_mul, Nat.add_zero, field (show 0x140 + 8 ≤ SectionHeader.size by decide)]
    exact states.counter

/-- The section's own header is read from a header that was read. -/
theorem StatesSection.parsed (states : StatesSection stated cipher layout) {encrypted : Bool} {read : ContainerHeader}
    (parsed : ContainerHeader.parse (singleHeader units stated) encrypted = .ok read) {range : UnitRange}
    {found : SectionHeader} (there : read.section? 0 = some (range, found)) : SectionHeader.parse stated = .ok found := by
  have own : (singleHeader units stated).window (ContainerHeader.sectionOffset 0) SectionHeader.size = stated :=
    section_singleHeader states.length
  rw [← own]
  exact ContainerHeader.section?_parsed parsed there

theorem singleSection_states (codeSmall : code < 0x100) (coded : .ofCode code = cipher)
    (long : patch.length = 0x40) (patched : PatchLayout.DescribedIn patch layout) :
    StatesSection (singleSection code patch) cipher layout where
  length := length_singleSection code long
  hashes := by
    have kind : (singleSection code patch).fieldAt 3 1 = 1 := by
      simp [singleSection, Bytes.fieldAt_append_of_le, Bytes.fieldAt_encode]
    rw [kind]
    exact ⟨none, rfl⟩
  cipher := by
    have field : (singleSection code patch).fieldAt 4 1 = code := by
      simpa [singleSection, Bytes.fieldAt_append_of_le, Bytes.fieldAt_encode] using codeSmall
    rw [field, coded]
  patch := by
    have field : (singleSection code patch).window 0x100 0x40 = patch := by
      simp [singleSection, Bytes.window_append_of_le, Bytes.window_append_first, long]
    rwa [field]
  counter := by simp [singleSection, Bytes.fieldAt_append_of_le, Bytes.fieldAt_encode, long]

theorem StatesSection.plan_described (states : StatesSection stated cipher layout) (small : units < 0x100) :
    (single cipher units layout).DescribedIn (singleHeader units stated) where
  length := length_singleHeader units states.length
  magic := by
    rw [magic_singleHeader]
    decide
  oldGeneration := by
    have block := window_block_singleHeader units stated (show 6 + 1 ≤ Aes.blockSize by decide)
    rw [Bytes.fieldAt, show 0x206 = Envelope.magicOffset + 6 from rfl, block]
    rfl
  keyAreaKind := by
    have block := window_block_singleHeader units stated (show 7 + 1 ≤ Aes.blockSize by decide)
    rw [Bytes.fieldAt, show 0x207 = Envelope.magicOffset + 7 from rfl, block]
    rfl
  newGeneration := by simp [singleHeader, Bytes.fieldAt_append_of_le, Bytes.fieldAt_encode, single]
  rightsId := by
    have zeros : (singleHeader units stated).window 0x230 0x10 = Bytes.zeros 0x10 := by
      simp [singleHeader, Bytes.window_append_of_le, Bytes.window_append_first]
    rw [zeros]
    rfl
  absent := by
    intro index inside none
    have later : index ≠ 0 := fun zero => by simp [single, zero] at none
    have cases : index = 1 ∨ index = 2 ∨ index = 3 := by omega
    obtain rfl | rfl | rfl := cases
    all_goals simp [singleHeader, Bytes.fieldAt_append_of_le, Bytes.fieldAt_append_left, Bytes.fieldAt_zeros]
  present := by
    intro index planned there
    cases index with
    | zero =>
      cases there
      exact ⟨by decide, states.described small⟩
    | succ index => cases there

theorem single_described (small : units < 0x100) (codeSmall : code < 0x100) (coded : .ofCode code = cipher)
    (long : patch.length = 0x40) (patched : PatchLayout.DescribedIn patch layout) :
    (single cipher units layout).DescribedIn (singleHeader units (singleSection code patch)) :=
  (singleSection_states codeSmall coded long patched).plan_described small

/-! ## Patches -/

/-- A descriptor of a table. -/
def tableDescriptor (table : PatchTable) : Bytes :=
  LittleEndian.encode 8 table.region.offset ++ (LittleEndian.encode 8 table.region.size ++ (.ofAscii "BKTR" ++
    (LittleEndian.encode 4 table.version ++ (LittleEndian.encode 4 table.entries ++ Bytes.zeros 4))))

/-- The descriptors of a patch. -/
def patchDescriptor (layout : PatchLayout) : Bytes :=
  tableDescriptor layout.relocations ++ tableDescriptor layout.subsections

/-- The numbers of a table fit their fields, and the table is there. -/
def Fits (table : PatchTable) : Prop :=
  table.region.offset < 256 ^ 8 ∧ table.region.size < 256 ^ 8 ∧ table.region.size ≠ 0 ∧ table.version < 256 ^ 4 ∧
    table.entries < 256 ^ 4

@[simp] theorem length_tableDescriptor (table : PatchTable) : (tableDescriptor table).length = 0x20 := by
  have magic : (Bytes.ofAscii "BKTR").length = 4 := by decide
  simp [tableDescriptor, magic]

theorem length_patchDescriptor (layout : PatchLayout) : (patchDescriptor layout).length = 0x40 := by
  simp [patchDescriptor]

theorem tableDescriptor_described {table : PatchTable} (fits : Fits table) :
    PatchTable.DescribedIn (tableDescriptor table) (some table) := by
  obtain ⟨offset, size, nonempty, version, entries⟩ := fits
  have magic : (Bytes.ofAscii "BKTR").length = 4 := by decide
  refine ⟨?_, ?_, nonempty, ?_, ?_, ?_⟩
  all_goals simp only [tableDescriptor, Bytes.fieldAt_append_of_le, Bytes.fieldAt_encode, Bytes.window_append_of_le,
    Bytes.window_append_first, magic, LittleEndian.length_encode, Nat.reduceSub, Nat.reduceLeDiff]
  · exact Nat.mod_eq_of_lt offset
  · exact Nat.mod_eq_of_lt size
  · exact Nat.mod_eq_of_lt version
  · exact Nat.mod_eq_of_lt entries

theorem patchDescriptor_described {layout : PatchLayout} (relocations : Fits layout.relocations)
    (subsections : Fits layout.subsections) : PatchLayout.DescribedIn (patchDescriptor layout) (some layout) := by
  have first : (patchDescriptor layout).window 0 0x20 = tableDescriptor layout.relocations :=
    Bytes.window_append_first _ (length_tableDescriptor _)
  have second : (patchDescriptor layout).window 0x20 0x20 = tableDescriptor layout.subsections := by
    simp [patchDescriptor, Bytes.window_append_of_le, Bytes.window_eq_self]
  refine ⟨some layout.relocations, some layout.subsections, ?_, ?_, rfl⟩
  · rw [first]
    exact tableDescriptor_described relocations
  · rw [second]
    exact tableDescriptor_described subsections

/-! ## Hashes -/

/-- A descriptor of a hash table. -/
def tableHashes (layout : TableLayout) : Bytes :=
  layout.master ++ (LittleEndian.encode 4 layout.blockSize ++ (Bytes.zeros 4 ++
    (LittleEndian.encode 8 layout.table.offset ++ (LittleEndian.encode 8 layout.table.size ++
    (LittleEndian.encode 8 layout.data.offset ++ (LittleEndian.encode 8 layout.data.size ++ Bytes.zeros 0xB0))))))

/-- The master hash is a hash, and the numbers fit their fields. -/
structure FitsHashes (layout : TableLayout) : Prop where
  master : layout.master.length = Sha256.size
  blockSize : layout.blockSize < 256 ^ 4
  table : layout.table.offset < 256 ^ 8 ∧ layout.table.size < 256 ^ 8
  data : layout.data.offset < 256 ^ 8 ∧ layout.data.size < 256 ^ 8

/-- The header of a section in plain text under a hash table. -/
def tableSection (layout : TableLayout) : Bytes :=
  LittleEndian.encode 2 2 ++ (LittleEndian.encode 1 1 ++ (LittleEndian.encode 1 2 ++ (LittleEndian.encode 1 1 ++
    (Bytes.zeros 3 ++ (tableHashes layout ++ (Bytes.zeros 0x40 ++ (LittleEndian.encode 8 7 ++ Bytes.zeros 0xB8)))))))

section
variable {hashes : TableLayout} (fits : FitsHashes hashes)
include fits

theorem length_tableHashes : (tableHashes hashes).length = 0xF8 := by
  simp [tableHashes, fits.master, Sha256.size]

theorem tableHashes_decode : TableLayout.decode (tableHashes hashes) = .ok hashes := by
  have long := length_tableHashes fits
  have master : hashes.master.length = 0x20 := fits.master
  have number : ∀ {offset width}, offset + width ≤ 0xF8 →
      (tableHashes hashes).numberAt offset width = .ok ((tableHashes hashes).fieldAt offset width) :=
    fun inside => Bytes.numberAt_eq (by omega)
  have first : (tableHashes hashes).bytesAt 0 Sha256.size = .ok hashes.master := by
    rw [Bytes.bytesAt_eq (by rw [long]; decide), tableHashes, Bytes.window_append_first _ fits.master]
  simp only [TableLayout.decode, regionAt, first, ok_bind, Nat.reduceAdd,
    number (show 0x20 + 4 ≤ 0xF8 by decide), number (show 0x28 + 8 ≤ 0xF8 by decide),
    number (show 0x30 + 8 ≤ 0xF8 by decide), number (show 0x38 + 8 ≤ 0xF8 by decide),
    number (show 0x40 + 8 ≤ 0xF8 by decide)]
  simp only [tableHashes, Bytes.fieldAt_append_of_le, Bytes.fieldAt_encode, master, Bytes.length_zeros,
    LittleEndian.length_encode, Nat.reduceSub, Nat.reduceLeDiff, Nat.mod_eq_of_lt fits.blockSize,
    Nat.mod_eq_of_lt fits.table.1, Nat.mod_eq_of_lt fits.table.2, Nat.mod_eq_of_lt fits.data.1,
    Nat.mod_eq_of_lt fits.data.2]
  rfl

theorem tableSection_decode : HashLayout.decode
    (.ofCode (.ofCode ((tableSection hashes).fieldAt 2 1)) ((tableSection hashes).fieldAt 3 1))
    ((tableSection hashes).window 8 0xF8) = .ok (some (.table hashes)) := by
  have kind : (tableSection hashes).fieldAt 3 1 = 2 := by
    simp [tableSection, Bytes.fieldAt_append_of_le, Bytes.fieldAt_encode]
  have descriptor : (tableSection hashes).window 8 0xF8 = tableHashes hashes := by
    simp [tableSection, Bytes.window_append_of_le, Bytes.window_append_first, length_tableHashes fits]
  rw [kind, descriptor]
  show TableLayout.decode (tableHashes hashes) >>= _ = _
  rw [tableHashes_decode fits]
  rfl

theorem tableSection_states : StatesSection (tableSection hashes) .plain none where
  length := by simp [tableSection, length_tableHashes fits, SectionHeader.size]
  hashes := ⟨_, tableSection_decode fits⟩
  cipher := by
    have field : (tableSection hashes).fieldAt 4 1 = 1 := by
      simp [tableSection, Bytes.fieldAt_append_of_le, Bytes.fieldAt_encode]
    rw [field]
    rfl
  patch := by
    have field : (tableSection hashes).window 0x100 0x40 = Bytes.zeros 0x40 := by
      simp [tableSection, Bytes.window_append_of_le, Bytes.window_append_first, length_tableHashes fits]
    rw [field]
    exact ⟨none, none, rfl, rfl, rfl⟩
  counter := by
    simp [tableSection, Bytes.fieldAt_append_of_le, Bytes.fieldAt_encode, length_tableHashes fits]

end

/-! ## Keys and the image -/

theorem known?_set_of_ne {ring : KeyRing} {slot other : Slot} (different : other ≠ slot) (bytes : Bytes) :
    (ring.set slot bytes).known? other = ring.known? other := by
  simp only [KeyRing.set]
  split
  · exact if_neg different
  · rfl

theorem known?_set_self {ring : KeyRing} {slot : Slot} {bytes : Bytes}
    (fits : slot.Exists ∧ bytes.length = slot.family.length) (nonzero : bytes.isZero = false) :
    (ring.set slot bytes).known? slot = some bytes := by
  simp only [KeyRing.set]
  rw [dif_pos fits]
  simp [nonzero]

theorem single_known (units : Nat) (stated : Bytes) :
    (single cipher units layout).KnownTo singleRing (singleHeader units stated) := by
  have found : singleRing.known? ⟨.keyAreaKey .application, 2⟩ = some singleKek.toBytes :=
    known?_set_self ⟨by decide, rfl⟩ (show singleKek.toBytes.isZero = false by decide)
  have noRights : (single cipher units layout).rightsId.toBytes.isZero = true :=
    show Block.zero.toBytes.isZero = true by decide
  rw [KnownTo, if_pos noRights]
  refine ⟨singleKek, ?_, ?_⟩
  · show singleRing.keyAreaKey .application 2 = _
    rw [KeyRing.keyAreaKey, KeyRing.block?, found, Option.map_some, Block.ofBytes_toBytes]
  · show (singleHeader units stated).window 0x300 0x40 = singleKeyArea
    simp [singleHeader, Bytes.window_append_of_le, Bytes.window_append_first, Sha256.length_digest]

/-- The header is stored encrypted under the sample key, in front of anything. -/
theorem single_stores (units : Nat) (long : stated.length = SectionHeader.size) :
    ∃ sealed, encryptHeader sampleKey (singleHeader units stated) = .ok sealed ∧ sealed.length = Envelope.size ∧
      ∀ rest, StoresHeader singleRing (singleHeader units stated) (sealed ++ rest) := by
  have whole := length_singleHeader units long
  have block := block_singleHeader units stated
  obtain ⟨sealed, seals⟩ := exists_encryptHeader sampleKey whole (by rw [magic_singleHeader]; decide)
  obtain ⟨sealedLong, -⟩ := decryptHeader_encryptHeader whole seals
  have known : singleRing.headerKey = .ok sampleKey := by
    have kept : singleRing.known? ⟨.headerKey, 0⟩ = (KeyRing.withHeaderKey sampleKey).known? ⟨.headerKey, 0⟩ :=
      known?_set_of_ne (by decide) singleKek.toBytes
    rw [KeyRing.headerKey, KeyRing.xtsKey?, kept]
    exact KeyRing.headerKey_withHeaderKey (show sampleKey.toBytes.isZero = false by decide)
  have front : ∀ rest, (sealed ++ rest).take Envelope.size = sealed := fun rest => List.take_left' sealedLong
  refine ⟨sealed, seals, sealedLong, fun rest => ⟨?_, .inr ⟨sampleKey, known, by rw [front, seals], ?_⟩⟩⟩
  · rw [List.length_append]
    omega
  · have first : Envelope.magic (sealed ++ rest) = Envelope.magic sealed :=
      Bytes.window_append_left (by rw [sealedLong]; decide)
    rw [first, unmarked_of_block whole block seals]

/-- What is stored behind the header stands where the plan says. -/
theorem single_stands {planned : SectionPlan} (range : planned.range = ⟨6, 6 + units⟩) {sealed stored : Bytes}
    (long : sealed.length = Envelope.size) (storedLong : stored.length = mediaBytes units) :
    planned.StandsIn (sealed ++ stored) stored := by
  have start : planned.range.start = sealed.length + 0 := by
    rw [range, long]
    simp [UnitRange.start, mediaBytes, mediaUnit, Envelope.size]
  have size : planned.range.size = stored.length := by
    rw [storedLong, UnitRange.size, UnitRange.stop, UnitRange.start, range]
    simp only [mediaBytes, mediaUnit]
    omega
  refine ⟨?_, by rw [start, size, Bytes.window_append_right, Bytes.window_all]⟩
  rw [List.length_append, ← UnitRange.start_add_size (by rw [range]; exact Nat.le_add_right 6 units), start, size]
  exact Nat.le_refl _

end SealedContent.ContainerPlan
