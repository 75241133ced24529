import SealedContent.Container.Header
import SealedContent.Proofs.Storage.Parsing
import SealedContent.Proofs.Windows

/-! # The layout of headers

What the headers of containers and sections say, each field at its offset. The parsers that go through a
header field by field give the same: `SectionHeader.read_parses` and `ContainerHeader.ofStorage_answers`.
-/

namespace SealedContent

variable {kept : Session → Prop}

/-! ## Sections -/

namespace SectionHeader

/-- The header of a section in its `0x200` bytes. -/
def parse (bytes : Bytes) : Except Error SectionHeader := do
  let fileSystem := FileSystemKind.ofCode (bytes.fieldAt 2 1)
  let hashKind := HashKind.ofCode fileSystem (bytes.fieldAt 3 1)
  let hashes ← HashLayout.decode hashKind (bytes.window 0x8 0xF8)
  let patch ← PatchLayout.decode? (bytes.window 0x100 0x40)
  return { version := bytes.fieldAt 0 2, fileSystem, hashKind, cipher := .ofCode (bytes.fieldAt 4 1), hashes,
           patch, counter := bytes.fieldAt 0x140 8 }

theorem read_parses {bytes : Bytes} {start : Nat} (inside : start + size ≤ bytes.length) :
    ParsesAt kept bytes start read (parse (bytes.window start size)) (start + 0x148) := by
  simp only [size] at *
  refine .step (.number (by decide) (by omega)) (.step (.number (by decide) (by omega))
    (.step (.number (by decide) (by omega)) (.step (.number (by decide) (by omega))
    (.step (.skip (by decide) (by omega)) (.step (.exactly (by decide) (by omega))
    (.step (.exactly (by decide) (by omega)) (.step (.number (by decide) (by omega)) ?_)))))))
  simp only [parse, Bytes.fieldAt, Bytes.window_window, Nat.add_assoc, Nat.reduceAdd, Nat.reduceLeDiff,
    Nat.add_zero]
  exact .bind (.lift _) fun hashes _ => .bind (.lift _) fun patch _ => .pure _

/-- The hashes that a header states. -/
theorem decode_parsed {bytes : Bytes} {header : SectionHeader} (parsed : parse bytes = .ok header) :
    HashLayout.decode (.ofCode (.ofCode (bytes.fieldAt 2 1)) (bytes.fieldAt 3 1)) (bytes.window 8 0xF8) =
      .ok header.hashes := by
  obtain ⟨hashes, decoded, parsed⟩ := ok_of_bind parsed
  obtain ⟨patch, -, parsed⟩ := ok_of_bind parsed
  cases parsed
  exact decoded

end SectionHeader

/-! ## Containers -/

namespace ContainerHeader

def parseVersion (magic : Bytes) : Except Error ContainerVersion :=
  match ContainerVersion.ofMagic? magic with
  | some version => .ok version
  | none =>
    if ContainerVersion.isOldMagic magic then
      .error (.layout (.oldHeader (String.ofList (magic.map fun b => Char.ofNat b.toNat))))
    else .error (.format .headerMagic)

/-- The range in the entry of a section. -/
def parseRange (entry : Bytes) : Except Error UnitRange :=
  let range : UnitRange := ⟨entry.fieldAt 0 4, entry.fieldAt 4 4⟩
  if range.isPresent ∧ range.last < range.first then .error (.format .sectionReversed) else .ok range

/-- Where the header of a section lies. -/
def sectionOffset (index : Nat) : Nat := Envelope.sectionsOffset + index * SectionHeader.size

/-- The header of a section, under its hash. -/
def parseSection (header : Bytes) (index : Nat) (range : UnitRange) (digest : Bytes) :
    Except Error (Option SectionHeader) :=
  let bytes := header.window (sectionOffset index) SectionHeader.size
  if !range.isPresent then .ok none
  else if Sha256.digest bytes ≠ digest then .error (.format (.sectionHeaderHash index))
  else do return some (← SectionHeader.parse bytes)

def parseSections (header : Bytes) :
    (index : Nat) → List (UnitRange × Bytes) → Except Error (List (Option SectionHeader))
  | _, [] => .ok []
  | index, (range, digest) :: rest => do
    return (← parseSection header index range digest) :: (← parseSections header (index + 1) rest)

/-- The hashes of the section headers. -/
def digestsOf (header : Bytes) : List Bytes := (List.range 4).map fun i => header.window (0x280 + i * 0x20) 0x20

/-- The header whose checked parts are given; the others stand at their offsets. -/
def assemble (header : Bytes) (encrypted : Bool) (version : ContainerVersion) (keyAreaKind : KeyAreaKind)
    (ranges : List UnitRange) (sections : List (Option SectionHeader)) : ContainerHeader where
  version := version
  distribution := .ofCode (header.fieldAt 0x204 1)
  kind := .ofCode (header.fieldAt 0x205 1)
  generation := max (header.fieldAt 0x206 1) (header.fieldAt 0x220 1)
  keyAreaKind := keyAreaKind
  contentSize := header.fieldAt 0x208 8
  programId := header.fieldAt 0x210 8
  contentIndex := header.fieldAt 0x218 4
  sdkVersion := header.fieldAt 0x21C 4
  signatureGeneration := header.fieldAt 0x221 1
  rightsId := .ofBytes (header.window 0x230 0x10)
  ranges := ranges
  digests := digestsOf header
  keyArea := (List.range 4).map fun i => .ofBytes (header.window (0x300 + i * 0x10) 0x10)
  sections := sections
  encrypted := encrypted
  storage := .ofBytes header

/-- The header of a container in its `0xC00` bytes. -/
def parse (header : Bytes) (encrypted : Bool) : Except Error ContainerHeader := do
  let version ← parseVersion (header.window 0x200 4)
  let keyAreaKind ← KeyAreaKind.ofNumber (header.fieldAt 0x207 1)
  let ranges ← (List.range 4).mapM fun i => parseRange (header.window (0x240 + i * 0x10) 0x10)
  let sections ← parseSections header 0 (ranges.zip (digestsOf header))
  return assemble header encrypted version keyAreaKind ranges sections

theorem parse_eq_ok_iff {header : Bytes} {encrypted : Bool} {read : ContainerHeader} :
    parse header encrypted = .ok read ↔ ∃ version keyAreaKind ranges sections,
      parseVersion (header.window 0x200 4) = .ok version ∧
      KeyAreaKind.ofNumber (header.fieldAt 0x207 1) = .ok keyAreaKind ∧
      ((List.range 4).mapM fun i => parseRange (header.window (0x240 + i * 0x10) 0x10)) = .ok ranges ∧
      parseSections header 0 (ranges.zip (digestsOf header)) = .ok sections ∧
      read = assemble header encrypted version keyAreaKind ranges sections := by
  simp only [parse]
  constructor
  · intro gives
    obtain ⟨version, first, gives⟩ := ok_of_bind gives
    obtain ⟨keyAreaKind, second, gives⟩ := ok_of_bind gives
    obtain ⟨ranges, third, gives⟩ := ok_of_bind gives
    obtain ⟨sections, fourth, gives⟩ := ok_of_bind gives
    cases gives
    exact ⟨version, keyAreaKind, ranges, sections, first, second, third, fourth, rfl⟩
  · rintro ⟨version, keyAreaKind, ranges, sections, first, second, third, fourth, rfl⟩
    rw [first, second, third]
    show parseSections header 0 _ >>= _ = _
    rw [fourth]
    rfl

theorem parseSections_ok {header : Bytes} {parsed : (index : Nat) → Option SectionHeader}
    {items : List (UnitRange × Bytes)} :
    ∀ {first : Nat}, (∀ i (inside : i < items.length),
        parseSection header (first + i) items[i].1 items[i].2 = .ok (parsed (first + i))) →
      parseSections header first items = .ok ((List.range' first items.length).map parsed) := by
  induction items with
  | nil => exact fun _ => rfl
  | cons item rest inductionHypothesis =>
    intro first each
    have here := each 0 (by simp)
    have later := @inductionHypothesis (first + 1) fun i inside => by
      rw [Nat.add_right_comm]
      exact each (i + 1) (by simpa using inside)
    simp only [parseSections]
    rw [show parseSection header first item.1 item.2 = _ from here, later]
    rfl

/-- The header of a section stands at its place. -/
theorem parseSections_parsed {bytes : Bytes} {items : List (UnitRange × Bytes)} :
    ∀ {first : Nat} {sections : List (Option SectionHeader)}, parseSections bytes first items = .ok sections →
      ∀ index found, sections[index]? = some (some found) →
        SectionHeader.parse (bytes.window (sectionOffset (first + index)) SectionHeader.size) = .ok found := by
  induction items with
  | nil =>
    intro first sections parsed index found there
    cases parsed
    cases there
  | cons item rest inductionHypothesis =>
    intro first sections parsed index found there
    simp only [parseSections] at parsed
    obtain ⟨here, hereParsed, parsed⟩ := ok_of_bind parsed
    obtain ⟨others, othersParsed, parsed⟩ := ok_of_bind parsed
    cases parsed
    cases index with
    | zero =>
      cases there
      simp only [parseSection] at hereParsed
      split at hereParsed
      · cases hereParsed
      split at hereParsed
      · cases hereParsed
      obtain ⟨header, headerParsed, hereParsed⟩ := ok_of_bind hereParsed
      cases hereParsed
      exact headerParsed
    | succ index =>
      rw [← Nat.add_assoc, Nat.add_right_comm]
      exact inductionHypothesis othersParsed index found there

theorem section?_parsed {bytes : Bytes} {encrypted : Bool} {read : ContainerHeader}
    (parsed : parse bytes encrypted = .ok read) {index : Nat} {range : UnitRange} {found : SectionHeader}
    (there : read.section? index = some (range, found)) :
    SectionHeader.parse (bytes.window (sectionOffset index) SectionHeader.size) = .ok found := by
  obtain ⟨_, _, _, sections, -, -, -, sectionsParsed, rfl⟩ := parse_eq_ok_iff.mp parsed
  obtain ⟨_, -, there⟩ := Option.bind_eq_some_iff.mp there
  obtain ⟨other, joined, same⟩ := Option.bind_eq_some_iff.mp there
  cases same
  have present := Option.join_eq_some_iff.mp joined
  have stands := parseSections_parsed sectionsParsed index found present
  rwa [Nat.zero_add] at stands

theorem readVersion_parses {bytes : Bytes} {start : Nat} (inside : start + 4 ≤ bytes.length) :
    ParsesAt kept bytes start readVersion (parseVersion (bytes.window start 4)) (start + 4) := by
  refine .step (.exactly (by decide) inside) ?_
  simp only [parseVersion]
  cases ContainerVersion.ofMagic? (bytes.window start 4) with
  | some version => exact .pure version
  | none =>
    dsimp only
    split
    · exact .fail _ _
    · exact .throw _

theorem readRange_parses {bytes : Bytes} {start : Nat} (inside : start + 0x10 ≤ bytes.length) :
    ParsesAt kept bytes start readRange (parseRange (bytes.window start 0x10)) (start + 0x10) := by
  refine .step (.number (by decide) (by omega)) (.step (.number (by decide) (by omega))
    (.step (.skip (by decide) (by omega)) ?_))
  simp only [parseRange, Bytes.fieldAt, Bytes.window_window, Nat.reduceAdd, Nat.reduceLeDiff, Nat.add_zero,
    Nat.add_assoc]
  by_cases reversed : UnitRange.isPresent ⟨LittleEndian.decode (bytes.window start 4),
      LittleEndian.decode (bytes.window (start + 4) 4)⟩ = true ∧
      LittleEndian.decode (bytes.window (start + 4) 4) < LittleEndian.decode (bytes.window start 4)
  · rw [if_pos reversed, if_pos reversed]
    exact .fail _ _
  · rw [if_neg reversed, if_neg reversed]
    exact .pure _

/-- The header of a section is looked up where it lies, wherever the parser stands. -/
theorem readSection_parses {bytes : Bytes} {index start : Nat}
    (inside : sectionOffset index + SectionHeader.size ≤ bytes.length) (short : bytes.length < UInt64.size)
    (range : UnitRange) (digest : Bytes) :
    Parses kept bytes start (readSection index range digest) (parseSection bytes index range digest) := by
  simp only [readSection, parseSection]
  change sectionOffset index + 0x200 ≤ bytes.length at inside
  cases present : range.isPresent with
  | false => exact ⟨start, .pure none⟩
  | true =>
    simp only [Bool.not_true, Bool.false_eq_true, if_false]
    refine .get_bind (.step (.ofSession (answers_memory bytes inside)) ?_)
    by_cases other : Sha256.digest (bytes.window (sectionOffset index) SectionHeader.size) ≠ digest
    · rw [if_pos other]
      exact (if_pos other).symm ▸ ⟨0, .fail _ _⟩
    · rw [if_neg other]
      exact (if_neg other).symm ▸ .step (.seekTo (show sectionOffset index < UInt64.size by omega))
        (.bind (SectionHeader.read_parses inside) fun header _ => ⟨_, .pure _⟩)

theorem readSections_parses {bytes : Bytes} (short : bytes.length < UInt64.size)
    {items : List (UnitRange × Bytes)} :
    ∀ {index start : Nat}, sectionOffset (index + items.length) ≤ bytes.length →
      Parses kept bytes start (readSections index items) (parseSections bytes index items) := by
  induction items with
  | nil => exact fun {index start} _ => ⟨start, .pure []⟩
  | cons item rest inductionHypothesis =>
    intro index start inside
    obtain ⟨range, digest⟩ := item
    rw [List.length_cons, ← Nat.add_assoc, Nat.add_right_comm] at inside
    have here : sectionOffset index + SectionHeader.size ≤ bytes.length := by
      refine Nat.le_trans ?_ inside
      rw [sectionOffset, Nat.add_assoc, ← Nat.succ_mul]
      exact Nat.add_le_add_left (Nat.mul_le_mul_right _ (by omega)) _
    -- only a section that is present moves the parser, so where the next one finds it is left open
    obtain ⟨middle, first⟩ := @readSection_parses kept bytes index start here short range digest
    refine .bind first fun header _ => ?_
    obtain ⟨stop, others⟩ := @inductionHypothesis (index + 1) middle inside
    exact ⟨stop, .bind others fun headers _ => .pure _⟩

theorem readPlain_parses {bytes : Bytes} (long : bytes.length = Envelope.size) (encrypted : Bool) :
    Parses kept bytes 0 (readPlain encrypted) (parse bytes encrypted) := by
  have size : bytes.length = 0xC00 := long
  have magic : ParsesAt kept bytes 0 (ReaderM.seekTo Envelope.magicOffset) (.ok ()) 0x200 := .seekTo (by decide)
  have ranges : ParsesAt kept bytes 0x240 (ReaderM.repeated 4 readRange)
      ((List.range 4).mapM fun i => parseRange (bytes.window (0x240 + i * 0x10) 0x10))
      (0x240 + 4 * 0x10) := by
    refine .repeated 4 fun index inside => ?_
    rw [Nat.succ_mul, ← Nat.add_assoc]
    exact readRange_parses (by omega)
  have digests : ParsesAt kept bytes 0x280 (ReaderM.repeated 4 (ReaderM.exactly Sha256.size))
      (.ok (digestsOf bytes)) (0x280 + 4 * 0x20) := by
    refine .repeated_ok 4 fun index inside => ?_
    rw [Nat.succ_mul, ← Nat.add_assoc]
    exact .exactly (by decide) (show 0x280 + index * 0x20 + 0x20 ≤ bytes.length by omega)
  have keyArea : ParsesAt kept bytes 0x300 (ReaderM.repeated 4 ReaderM.block)
      (.ok ((List.range 4).map fun i => Aes.Block.ofBytes (bytes.window (0x300 + i * 0x10) 0x10)))
      (0x300 + 4 * 0x10) := by
    refine .repeated_ok 4 fun index inside => ?_
    rw [Nat.succ_mul, ← Nat.add_assoc]
    exact .block (by omega)
  simp only [readPlain, parse]
  -- one step for every field, in the order of the header
  refine .get_bind (.step magic (.bind (readVersion_parses (by omega)) fun version _ => ?_))
  refine .step (.number (by decide) (by omega)) (.step (.number (by decide) (by omega))
    (.step (.number (by decide) (by omega)) (.step (.number (by decide) (by omega))
    (.bind (.lift _) fun keyAreaKind _ => ?_))))
  refine .step (.number (by decide) (by omega)) (.step (.number (by decide) (by omega))
    (.step (.number (by decide) (by omega)) (.step (.number (by decide) (by omega))
    (.step (.number (by decide) (by omega)) (.step (.number (by decide) (by omega))
    (.step (.skip (by decide) (by omega)) (.step (.block (by omega)) (.bind ranges fun ranges taken => ?_))))))))
  have four : ranges.length = 4 := (mapM_eq_ok_iff.mp taken).length_eq.symm
  refine .step digests (.step keyArea ?_)
  obtain ⟨stop, sections⟩ := readSections_parses (by rw [size]; decide) (show sectionOffset
      (0 + (ranges.zip (digestsOf bytes)).length) ≤ bytes.length by
    rw [List.length_zip, digestsOf, List.length_map, List.length_range, four, size]
    decide)
  exact ⟨stop, .bind sections fun sections _ => .pure _⟩

theorem ofStorage_answers {bytes : Bytes} (long : bytes.length = Envelope.size) (encrypted : Bool) :
    Answers kept (ofStorage (.ofBytes bytes) encrypted) (parse bytes encrypted) :=
  (readPlain_parses long encrypted).run'

/-- The fields do not depend on how the header was stored. -/
theorem parse_encrypted (header : Bytes) :
    parse header true = (parse header false).map fun read => { read with encrypted := true } := by
  simp only [parse]
  cases parseVersion (header.window 0x200 4) with
  | error error => rfl
  | ok version =>
    cases KeyAreaKind.ofNumber (header.fieldAt 0x207 1) with
    | error error => rfl
    | ok keyAreaKind =>
      cases (List.range 4).mapM fun i => parseRange (header.window (0x240 + i * 0x10) 0x10) with
      | error error => rfl
      | ok ranges =>
        simp only [bind, Except.bind]
        cases parseSections header 0 (ranges.zip (digestsOf header)) with
        | error error => rfl
        | ok sections => rfl

end ContainerHeader

end SealedContent
