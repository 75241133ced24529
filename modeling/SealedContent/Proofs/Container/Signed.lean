import SealedContent.Proofs.Container.Building
import SealedContent.Proofs.Storage.Agreement

/-! # What the signature of a header covers

The signature covers the second `0x200` bytes of a header, and the hashes among them cover the section headers.
Two headers that agree there say the same, unless one hash stands for two section headers: the parser takes
nothing from anywhere else (`parsed_of_signed`).
-/

namespace SealedContent

variable {left right : Readable} {start : Nat}

/-! ## Sections -/

theorem SectionHeader.read_agrees (same : SameBetween left right start (start + size)) :
    Alike left right start read read (fun _ => True) (SameAt (start + 0x148)) := by
  have field : ∀ offset length, offset + length ≤ 0x200 →
      SameBetween left right (start + offset) (start + offset + length) := fun offset length inside =>
    same.mono (by omega) (by simp only [size]; omega)
  refine .step (.number (by decide) (field 0 2 (by decide))) fun version => ?_
  refine .step (.number (by decide) (field 2 1 (by decide))) fun fileSystem => ?_
  refine .step (.number (by decide) (field 3 1 (by decide))) fun hashKind => ?_
  refine .step (.number (by decide) (field 4 1 (by decide))) fun cipher => ?_
  refine .step (.skip (by decide) (field 5 3 (by decide))) fun _ => ?_
  refine .step (.exactly (by decide) (field 8 0xF8 (by decide))) fun hashData => ?_
  refine .step (.exactly (by decide) (field 0x100 0x40 (by decide))) fun patchData => ?_
  refine .step (.number (by decide) (field 0x140 8 (by decide))) fun counter => ?_
  exact .step (.lift _) fun hashes => .step (.lift _) fun patch => .pure fun _ => ⟨rfl, rfl⟩

namespace ContainerHeader

/-- The headers of a section in two storages are the same, or their hashes tell them apart. -/
def Separated (first second : Storage) (index : Nat) : Prop :=
  ∀ header header', first.byte?.window? (sectionOffset index) SectionHeader.size = some header →
    second.byte?.window? (sectionOffset index) SectionHeader.size = some header' →
    header = header' ∨ Sha256.digest header ≠ Sha256.digest header'

/-- Under one hash the headers of a section are the same. -/
theorem readSection_agrees {index : Nat} {range : UnitRange} {digest : Bytes} (near : index < 4)
    (separated : range.isPresent = true → Separated left.storage right.storage index) :
    Alike left right start (readSection index range digest) (readSection index range digest) (fun _ => True)
      SameValue := by
  simp only [readSection]
  cases present : range.isPresent with
  | false => exact .pure fun _ => rfl
  | true =>
    simp only [Bool.not_true, Bool.false_eq_true, if_false]
    have short : sectionOffset index < UInt64.size := by
      simp only [sectionOffset, Envelope.sectionsOffset, SectionHeader.size, UInt64.size]
      omega
    have headers : Alike left right start
        (ReaderM.ofSession (left.storage.read (sectionOffset index) SectionHeader.size))
        (ReaderM.ofSession (right.storage.read (sectionOffset index) SectionHeader.size)) (fun _ => True)
        (fun _ header header' => left.storage.byte?.window? (sectionOffset index) SectionHeader.size = some header ∧
          right.storage.byte?.window? (sectionOffset index) SectionHeader.size = some header') :=
      .of_yieldsAt (.ofSession _ _) (.ofSession _ _) fun _ _ found found' => ⟨found, found'⟩
    refine .get_bind (.bind headers fun _ header header' both => ?_)
    obtain ⟨found, found'⟩ := both
    by_cases other : Sha256.digest header ≠ digest
    · rw [if_pos other]
      exact .throw_bind _ _
    by_cases other' : Sha256.digest header' ≠ digest
    · rw [if_pos other']
      exact .throw_bind_right _ _
    rw [if_neg other, if_neg other']
    -- both hashes are the signed one
    have equal : Sha256.digest header = Sha256.digest header' :=
      (not_ne_iff.mp other).trans (not_ne_iff.mp other').symm
    obtain rfl := (separated present header header' found found').resolve_right fun different => different equal
    exact .step (.seekTo short) fun _ => .step (SectionHeader.read_agrees (.of_window found found')) fun _ =>
      .pure fun _ => rfl

theorem readSections_agrees {items : List (UnitRange × Bytes)} :
    ∀ {index start : Nat}, index + items.length ≤ 4 →
      (∀ i (inside : i < items.length), items[i].1.isPresent = true →
        Separated left.storage right.storage (index + i)) →
      Alike left right start (readSections index items) (readSections index items) (fun _ => True) SameValue := by
  induction items with
  | nil => exact fun {index start} _ _ => .pure fun _ => rfl
  | cons item rest inductionHypothesis =>
    intro index start near separated
    rw [List.length_cons] at near
    refine .bind (readSection_agrees (by omega) (separated 0 (Nat.succ_pos _))) fun middle header _ same => ?_
    obtain rfl := same
    refine .bind (inductionHypothesis (by omega) fun i inside present => ?_) fun _ headers _ same => ?_
    · rw [Nat.add_right_comm]
      exact separated (i + 1) (Nat.succ_lt_succ inside) present
    · exact .pure fun _ => congrArg (header :: ·) same

/-! ## Headers -/

theorem readVersion_agrees (same : SameBetween left right start (start + 4)) :
    Alike left right start readVersion readVersion (fun _ => True) (SameAt (start + 4)) := by
  refine .step (.exactly (by decide) same) fun magic => ?_
  cases ContainerVersion.ofMagic? magic with
  | some version => exact .pure fun _ => ⟨rfl, rfl⟩
  | none =>
    dsimp only
    split
    · exact .throw_bind _ _
    · exact .throw _

theorem readRange_agrees (same : SameBetween left right start (start + 0x10)) :
    Alike left right start readRange readRange (fun _ => True) (SameAt (start + 0x10)) := by
  refine .step (.number (by decide) (same.mono (by omega) (by omega))) fun first => ?_
  refine .step (.number (by decide) (same.mono (by omega) (by omega))) fun last => ?_
  refine .step (.skip (by decide) (same.mono (by omega) (by omega))) fun _ => ?_
  split
  · exact .throw_bind _ _
  · exact .pure fun _ => ⟨rfl, rfl⟩

/-- The sections that are present have the same headers in two storages, or headers that their hashes tell apart. -/
def SectionsSeparated (first second : Storage) (ranges : List UnitRange) : Prop :=
  ∀ (index : Nat) (range : UnitRange), ranges[index]? = some range → range.isPresent = true →
    Separated first second index

/-- One step for every field, in the order of the header. -/
theorem readPlain_agrees (signed : SameBetween left right 0x200 0x400) (encrypted : Bool) :
    Alike left right 0 (readPlain encrypted) (readPlain encrypted)
      (fun header => SectionsSeparated left.storage right.storage header.ranges)
      (fun _ header header' => header = { header' with storage := header.storage }) := by
  have within : ∀ first last, 0x200 ≤ first → last ≤ 0x400 → SameBetween left right first last :=
    fun first last => signed.mono
  have number : ∀ {first length : Nat}, 0 < length → 0x200 ≤ first → first + length ≤ 0x400 →
      Alike left right first (ReaderM.number length) (ReaderM.number length) (fun _ => True)
        (SameAt (first + length)) :=
    fun nonempty low high => .number nonempty (within _ _ low high)
  refine .get_bind (.step (.seekTo (show Envelope.magicOffset < UInt64.size by decide)) fun _ => ?_)
  refine .step (readVersion_agrees (within 0x200 _ (by decide) (by decide))) fun version => ?_
  refine .step (number (by decide) (by decide) (by decide)) fun distribution => ?_
  refine .step (number (by decide) (by decide) (by decide)) fun kind => ?_
  refine .step (number (by decide) (by decide) (by decide)) fun oldGeneration => ?_
  refine .step (number (by decide) (by decide) (by decide)) fun keyAreaIndex => ?_
  refine .step (.lift _) fun keyAreaKind => ?_
  refine .step (number (by decide) (by decide) (by decide)) fun contentSize => ?_
  refine .step (number (by decide) (by decide) (by decide)) fun programId => ?_
  refine .step (number (by decide) (by decide) (by decide)) fun contentIndex => ?_
  refine .step (number (by decide) (by decide) (by decide)) fun sdkVersion => ?_
  refine .step (number (by decide) (by decide) (by decide)) fun generation => ?_
  refine .step (number (by decide) (by decide) (by decide)) fun signatureGeneration => ?_
  refine .step (.skip (by decide) (within 0x222 _ (by decide) (by decide))) fun _ => ?_
  refine .step (.block (within 0x230 _ (by decide) (by decide))) fun rightsId => ?_
  have rangeItems : ∀ index < 4, Alike left right (0x240 + index * 0x10) readRange readRange (fun _ => True)
      (SameAt (0x240 + (index + 1) * 0x10)) := by
    intro index inside
    rw [Nat.succ_mul, ← Nat.add_assoc]
    exact readRange_agrees (within _ _ (by omega) (by omega))
  refine .bind (.repeated 4 rangeItems) fun _ ranges _ same => ?_
  obtain ⟨⟨rfl, rfl⟩, long⟩ := same
  have digestItems : ∀ index < 4, Alike left right (0x280 + index * 0x20) (ReaderM.exactly Sha256.size)
      (ReaderM.exactly Sha256.size) (fun _ => True) (SameAt (0x280 + (index + 1) * 0x20)) := by
    intro index inside
    rw [Nat.succ_mul, ← Nat.add_assoc]
    exact .exactly (by decide) (within _ _ (by omega) (show 0x280 + index * 0x20 + 0x20 ≤ 0x400 by omega))
  refine .bind (.repeated 4 digestItems) fun _ digests _ same => ?_
  obtain ⟨⟨rfl, rfl⟩, -⟩ := same
  have keyItems : ∀ index < 4, Alike left right (0x300 + index * 0x10) ReaderM.block ReaderM.block (fun _ => True)
      (SameAt (0x300 + (index + 1) * 0x10)) := by
    intro index inside
    rw [Nat.succ_mul, ← Nat.add_assoc]
    exact .block (within _ _ (by omega) (by omega))
  refine .bind (.repeated 4 keyItems) fun _ keyArea _ same => ?_
  obtain ⟨⟨rfl, rfl⟩, -⟩ := same
  -- what is expected of the header is about the ranges that were just read
  refine .map (.assume fun separated : SectionsSeparated left.storage right.storage ranges => ?_)
  refine (readSections_agrees ?_ fun index inside present => ?_).imp fun _ sections _ same _ => ?_
  · rw [List.length_zip, Nat.zero_add]
    exact (Nat.min_le_left _ _).trans (Nat.le_of_eq long)
  · rw [List.length_zip] at inside
    rw [List.getElem_zip] at present
    rw [Nat.zero_add]
    exact separated index _ (List.getElem?_eq_getElem (by omega)) present
  · obtain rfl := same
    rfl

/-- Nothing that a header says, and no key that it gives, depends on bytes that are not signed. -/
theorem parsed_of_signed {admits admits' : StorageCipher → Nat → Prop} {w v : Workspace}
    (reached : Workspace.StepsOf admits {} w) (reached' : Workspace.StepsOf admits' {} v)
    {first second : Storage} (member : first ∈ w.nodes) (member' : second ∈ v.nodes) {encrypted : Bool}
    {header other : ContainerHeader} (parses : (ofStorage first encrypted).result w.session = .ok header)
    (parses' : (ofStorage second encrypted).result v.session = .ok other)
    (signed : ∀ position, 0x200 ≤ position → position < 0x400 → first.byte? position = second.byte? position)
    (separated : SectionsSeparated first second header.ranges) :
    header = { other with storage := header.storage } ∧ (∀ index, header.section? index = other.section? index) ∧
      ∀ ring, header.keyAreaKeys ring = other.keyAreaKeys ring ∧ header.titleKey ring = other.titleKey ring := by
  have sound := Workspace.sound_of_steps reached
  have sound' := Workspace.sound_of_steps reached'
  obtain ⟨reader, left, ran⟩ := ReaderM.run'_eq_ok parses
  obtain ⟨reader', left', ran'⟩ := ReaderM.run'_eq_ok parses'
  have agree := @readPlain_agrees (sound.readable member) (sound'.readable member') signed encrypted
  obtain ⟨-, same, -⟩ := agree w.session v.session sound.remembers sound'.remembers header other reader reader' left
    left' ran ran' separated
  rw [same]
  exact ⟨rfl, fun index => rfl, fun ring => ⟨rfl, rfl⟩⟩

/-! ### Another signature -/

/-- The header with other bytes in the place of the signatures. -/
def resigned (signatures header : Bytes) : Bytes := signatures ++ header.drop 0x200

theorem window_resigned {signatures : Bytes} (long : signatures.length = 0x200) (header : Bytes) {offset length : Nat}
    (behind : 0x200 ≤ offset) : (resigned signatures header).window offset length = header.window offset length := by
  rw [resigned, Bytes.window_append_of_le (by omega), Bytes.window, List.drop_drop, long, Nat.add_sub_cancel' behind,
    ← Bytes.window]

theorem fieldAt_resigned {signatures : Bytes} (long : signatures.length = 0x200) (header : Bytes) {offset width : Nat}
    (behind : 0x200 ≤ offset) : (resigned signatures header).fieldAt offset width = header.fieldAt offset width := by
  rw [Bytes.fieldAt, window_resigned long header behind, Bytes.fieldAt]

theorem parseSections_resigned {signatures : Bytes} (long : signatures.length = 0x200) (header : Bytes)
    {items : List (UnitRange × Bytes)} :
    ∀ {index : Nat}, parseSections (resigned signatures header) index items = parseSections header index items := by
  induction items with
  | nil => exact fun {index} => rfl
  | cons item rest inductionHypothesis =>
    intro index
    have behind : 0x200 ≤ sectionOffset index := by
      simp only [sectionOffset, Envelope.sectionsOffset]
      omega
    simp only [parseSections, parseSection]
    rw [window_resigned long header behind, inductionHypothesis]

/-- No field is a part of the signatures. -/
theorem parse_resigned {signatures header : Bytes} (long : signatures.length = 0x200) {encrypted : Bool}
    {read : ContainerHeader} (gives : parse header encrypted = .ok read) :
    parse (resigned signatures header) encrypted =
      .ok { read with storage := .ofBytes (resigned signatures header) } := by
  obtain ⟨version, keyAreaKind, ranges, sections, magic, kind, parsedRanges, parsedSections, rfl⟩ :=
    parse_eq_ok_iff.mp gives
  have window := @window_resigned signatures long header
  have field := @fieldAt_resigned signatures long header
  have items : ∀ base length index, 0x200 ≤ base →
      (resigned signatures header).window (base + index * length) length =
        header.window (base + index * length) length :=
    fun base length index behind => window (Nat.le_add_right_of_le behind)
  have digests : digestsOf (resigned signatures header) = digestsOf header := by
    simp only [digestsOf, items 0x280 0x20 _ (by decide)]
  refine parse_eq_ok_iff.mpr ⟨version, keyAreaKind, ranges, sections, ?_, ?_, ?_, ?_, ?_⟩
  · rwa [window (by decide)]
  · rwa [field (by decide)]
  · simpa only [items 0x240 0x10 _ (by decide)] using parsedRanges
  · rw [digests, parseSections_resigned long]
    exact parsedSections
  · simp (disch := decide) only [assemble, digests, window, field, items]

/-- A header of one section under other signatures. -/
def resignedSample : Bytes := resigned (List.replicate 0x200 0xA5) ContainerPlan.sampleHeader

theorem parsed_of_signed_resigned : ∃ header other,
    (ofStorage (.ofBytes ContainerPlan.sampleHeader) false).result {} = .ok header ∧
    (ofStorage (.ofBytes resignedSample) false).result {} = .ok other ∧
    ContainerPlan.sampleHeader[0]? ≠ resignedSample[0]? ∧ (header.section? 0).isSome ∧
    header = { other with storage := header.storage } ∧ (∀ index, header.section? index = other.section? index) ∧
    ∀ ring, header.keyAreaKeys ring = other.keyAreaKeys ring ∧ header.titleKey ring = other.titleKey ring := by
  have long : ContainerPlan.sampleHeader.length = Envelope.size :=
    ContainerPlan.length_singleHeader 1 (ContainerPlan.length_singleSection 3 (Bytes.length_zeros 0x40))
  have signatures : (List.replicate 0x200 0xA5 : Bytes).length = 0x200 := List.length_replicate
  have long' : resignedSample.length = Envelope.size := by
    rw [resignedSample, resigned, List.length_append, List.length_drop, signatures, long]
    rfl
  have described : (ContainerPlan.single .ctr 1 none).DescribedIn ContainerPlan.sampleHeader :=
    ContainerPlan.single_described (by decide) (by decide) rfl (Bytes.length_zeros 0x40) ⟨none, none, rfl, rfl, rfl⟩
  obtain ⟨header, gives, stated⟩ := described.parse false
  obtain ⟨sectionHeader, there, -⟩ := stated.sections 0 _ rfl
  have first := (ofStorage_result long false {}).1.trans gives
  have second := (ofStorage_result long' false {}).1.trans (parse_resigned signatures gives)
  have reached : Workspace.Steps {} (.add {} (.ofBytes ContainerPlan.sampleHeader)) :=
    .step .refl (.ofBytes (by rw [long]; decide))
  have reached' : Workspace.Steps {} (.add {} (.ofBytes resignedSample)) :=
    .step .refl (.ofBytes (by rw [long']; decide))
  have same : ∀ position, 0x200 ≤ position → (Storage.ofBytes ContainerPlan.sampleHeader).byte? position =
      (Storage.ofBytes resignedSample).byte? position := by
    intro position behind
    simp only [Storage.ofBytes, Storage.byte?, List.getElem?_toArray, resignedSample, resigned]
    rw [List.getElem?_append_right (by rwa [signatures]), List.getElem?_drop, signatures, Nat.add_sub_cancel' behind]
  have separated : SectionsSeparated (.ofBytes ContainerPlan.sampleHeader) (.ofBytes resignedSample) header.ranges := by
    intro index range _ _ bytes bytes' found found'
    rw [ByteMap.window?_congr fun i _ => same _ ?_, found'] at found
    · exact .inl (Option.some.inj found).symm
    · simp only [sectionOffset, Envelope.sectionsOffset]
      omega
  have conclusion := parsed_of_signed reached reached' (.head _) (.head _) first second
    (fun position low _ => same position low) separated
  refine ⟨header, _, first, second, ?_, ?_, conclusion⟩
  · rw [resignedSample, resigned, List.getElem?_append_left (by rw [signatures]; decide), ContainerPlan.sampleHeader,
      ContainerPlan.singleHeader, List.getElem?_append_left (by rw [Bytes.length_zeros]; decide)]
    decide
  · rw [there]
    rfl

end ContainerHeader

end SealedContent
