import SealedContent.GameCard
import SealedContent.Proofs.Archive.HashedPartition
import SealedContent.Proofs.Storage.Parsing

/-! # Partitions of written game cards

A card whose header points to a written root partition is read as its header states (`CardHeader.takes_stated`). The
root lists the partitions of the card, and the first of a name is opened with all its files:
`GameCard.recovers_partitions`.
-/

namespace SealedContent

open Workspace (Steps)
open HashedPartition (Fits RecoversAll listed tableAt written)
open ArchiveTable (Row rows)

/-! ## Headers -/

namespace CardHeader

/-- What the bytes of a card state, with the table of its root. -/
def stated (card : Bytes) (root : ArchiveTable HashedFile) : CardHeader where
  romAreaStart := mediaBytes (card.fieldAt 0x1104 4)
  keyIndices := card.fieldAt 0x110C 1
  romSize := card.fieldAt 0x110D 1
  version := card.fieldAt 0x110E 1
  flags := card.fieldAt 0x110F 1
  packageId := card.fieldAt 0x1110 8
  validDataEnd := mediaBytes (card.fieldAt 0x1118 4)
  reversedIv := card.window 0x1120 0x10
  rootHeader := ⟨card.fieldAt 0x1130 8, card.fieldAt 0x1138 8⟩
  rootDigest := card.window 0x1140 Sha256.size
  initialDataDigest := card.window 0x1160 Sha256.size
  securityMode := card.fieldAt 0x1180 4
  encryptedInfo := card.window 0x1190 0x70
  root := root

/-- The header of a card stands in it, and says that the root partition lies at an offset. -/
structure PointsTo (card : Bytes) (root : Nat) : Prop where
  long : 0x1200 ≤ card.length
  magic : card.window offset 4 = .ofAscii "HEAD"
  root : card.fieldAt 0x1130 8 = root

instance (card : Bytes) (root : Nat) : Decidable (PointsTo card root) :=
  decidable_of_iff (0x1200 ≤ card.length ∧ card.window offset 4 = .ofAscii "HEAD" ∧ card.fieldAt 0x1130 8 = root)
    ⟨fun ⟨long, magic, root⟩ => ⟨long, magic, root⟩, fun ⟨long, magic, root⟩ => ⟨long, magic, root⟩⟩

/-- The header is read field by field, and the root's table where the header says. -/
theorem takes_stated {nodes : List Storage} (graph : Coherent nodes) {content : Storage} (member : content ∈ nodes)
    {card : Bytes} (holds : content.Holds card) {start stop : Nat} {root : ArchiveTable HashedFile}
    (points : PointsTo card start)
    (table : Takes (Remembers nodes) content start HashedPartition.readTable root stop) :
    Takes (Remembers nodes) content 0 read (stated card root) stop := by
  obtain ⟨long, magic, rfl⟩ := points
  have room {position width : Nat} (inside : position + width ≤ 0x1200) : position + width ≤ card.length :=
    Nat.le_trans inside long
  have number {position : Nat} (width : Nat) (inside : position + width ≤ 0x1200 := by decide) :=
    Takes.number graph member holds (room inside)
  have exactly {position : Nat} (width : Nat) (inside : position + width ≤ 0x1200 := by decide) :=
    Takes.exactly graph member holds (room inside)
  have skip {position : Nat} (width : Nat) (inside : position + width ≤ 0x1200 := by decide) :=
    Takes.skip graph member holds (room inside)
  have pointed : card.fieldAt 0x1130 8 < UInt64.size := by
    have small := LittleEndian.decode_lt (card.window 0x1130 8)
    rwa [Bytes.length_window (room (by decide))] at small
  exact .bind (.seekTo (by decide)) <| .bind (.magic graph member holds (room (by decide)) magic) <|
    .bind (number 4) <| .bind (skip 4) <| .bind (number 1) <| .bind (number 1) <| .bind (number 1) <|
    .bind (number 1) <| .bind (number 8) <| .bind (number 4) <| .bind (skip 4) <| .bind (exactly 0x10) <|
    .bind (number 8) <| .bind (number 8) <| .bind (exactly Sha256.size) <| .bind (exactly Sha256.size) <|
    .bind (number 4) <| .bind (skip 12) <| .bind (exactly 0x70) <| .bind (.seekTo pointed) <| .bind table (.pure _)

end CardHeader

/-! ## Partitions -/

namespace GameCard

open CardHeader (PointsTo stated)

/-- A partition of a card: the files in it, and how much of each is hashed. -/
structure Part where
  name : String
  files : List (String × Bytes)
  hashed : Nat

/-- A partition as a file of the root. -/
def Part.entry (part : Part) : String × Bytes := (part.name, HashedPartition.image part.files part.hashed)

/-- The root partition of a card. -/
def rootImage (parts : List Part) (hashed : Nat) : Bytes := HashedPartition.image (parts.map Part.entry) hashed

/-- The image of a card: what stands in front of the root, the root and what stands behind it. -/
def image (front : Bytes) (parts : List Part) (hashed : Nat) (after : Bytes) : Bytes :=
  front ++ rootImage parts hashed ++ after

/-- The root and the partitions in it have room for what they count. -/
structure PartsFit (parts : List Part) (hashed : Nat) : Prop where
  root : Fits (parts.map Part.entry) hashed
  each : ∀ part ∈ parts, Fits part.files part.hashed

instance (parts : List Part) (hashed : Nat) : Decidable (PartsFit parts hashed) :=
  decidable_of_iff (Fits (parts.map Part.entry) hashed ∧ ∀ part ∈ parts, Fits part.files part.hashed)
    ⟨fun ⟨root, each⟩ => ⟨root, each⟩, fun ⟨root, each⟩ => ⟨root, each⟩⟩

variable {content : Storage} {front after : Bytes} {parts : List Part} {hashed : Nat} {part : Part} {name : String}

/-- The card that is read from an image. -/
def opened (content : Storage) (front : Bytes) (parts : List Part) (hashed : Nat) (after : Bytes) : GameCard :=
  ⟨content, stated (image front parts hashed after) (tableAt front.length (parts.map Part.entry) hashed)⟩

theorem ofStorage_answers {nodes : List Storage} (graph : Coherent nodes) (member : content ∈ nodes)
    (holds : content.Holds (image front parts hashed after))
    (points : PointsTo (image front parts hashed after) front.length) (fits : PartsFit parts hashed) :
    Answers (Remembers nodes) (ofStorage content) (.ok (opened content front parts hashed after)) := by
  obtain ⟨stop, table⟩ := HashedPartition.takes_written graph member holds fits.root
  exact (CardHeader.takes_stated graph member holds points table).run'.step (.pure _)

theorem find?_parts (parts : List Part) (name : String) :
    ((rows (parts.map Part.entry)).find? fun row => row.file.1 == name).map Row.file =
      (parts.find? (·.name == name)).map Part.entry := by
  rw [ArchiveTable.find?_rows, List.find?_map]
  rfl

theorem tableFile?_root (start : Nat) (parts : List Part) (hashed : Nat) (name : String) :
    HashedPartition.tableFile? (tableAt start (parts.map Part.entry) hashed) name =
      ((rows (parts.map Part.entry)).find? fun row => row.file.1 == name).map (listed hashed) := by
  rw [HashedPartition.tableFile?, tableAt, List.find?_map]
  rfl

/-- A card has the partitions that its root lists. -/
theorem hasPartition_opened :
    (opened content front parts hashed after).hasPartition name = true ↔ ∃ part ∈ parts, part.name = name := by
  have same : (opened content front parts hashed after).hasPartition name =
      (parts.find? (·.name == name)).isSome := by
    rw [hasPartition, opened, stated, tableFile?_root, Option.isSome_map, ← Option.isSome_map, find?_parts,
      Option.isSome_map]
  rw [same, List.find?_isSome]
  simp only [beq_iff_eq]

/-! ## Opening -/

/-- The windows through which the partition of a name is read: of the root, which extends to the end of the card, and
    of the partition in it. -/
structure Windows (content : Storage) (start : Nat) (parts : List Part) (hashed : Nat) (after : Bytes) (name : String)
    (part : Part) (root inner : Storage) : Prop where
  rootMade : content.window start (content.size - start) = .ok root
  rootHolds : root.Holds (rootImage parts hashed ++ after)
  made : ∃ file, (written root (parts.map Part.entry) hashed).file? name = some file ∧
    (written root (parts.map Part.entry) hashed).openFile file = .ok inner
  holds : inner.Holds (HashedPartition.image part.files part.hashed ++ [])

theorem windows (holds : content.Holds (image front parts hashed after)) (short : content.size < UInt64.size)
    (found : parts.find? (·.name == name) = some part) :
    ∃ root inner, Windows content front.length parts hashed after name part root inner := by
  -- the root
  have sized := holds.size
  simp only [image, List.length_append] at sized
  obtain ⟨root, rootMade⟩ := @window_ok content front.length (content.size - front.length) (by omega)
  have rest : (image front parts hashed after).window front.length (content.size - front.length) =
      rootImage parts hashed ++ after := by
    rw [Bytes.window, image, List.append_assoc, List.drop_left,
      List.take_of_length_le (by simp only [List.length_append]; omega)]
  have rootHolds := holds.window rootMade
  rw [rest] at rootHolds
  -- the first file of the name in it
  have entry := find?_parts parts name
  rw [found, Option.map_some] at entry
  obtain ⟨row, first, same⟩ := Option.map_eq_some_iff.mp entry
  obtain ⟨rootSized, -⟩ := size_window rootMade
  obtain ⟨inner, made, whole⟩ :=
    HashedPartition.openFile_written rootHolds (by omega) (List.mem_of_find?_eq_some first)
  have file : (written root (parts.map Part.entry) hashed).file? name = some (listed hashed row) := by
    rw [HashedPartition.file?, written, tableFile?_root, first]
    rfl
  rw [same, Part.entry, ← List.append_nil (HashedPartition.image _ _)] at whole
  exact ⟨root, inner, rootMade, rootHolds, ⟨_, file, made⟩, whole⟩

namespace Windows

variable {root inner : Storage}

/-- The windows can be made in any sound workspace. -/
theorem sound {w : Workspace} {start : Nat} (cuts : Windows content start parts hashed after name part root inner)
    (sound : w.Sound) (member : content ∈ w.nodes) : ((w.add root).add inner).Sound := by
  obtain ⟨file, -, made⟩ := cuts.made
  exact (sound.slice member cuts.rootMade).slice (.head _) (window_of_windowBehind made)

theorem openPartition_answers {nodes : List Storage} (graph : Coherent nodes)
    (cuts : Windows content front.length parts hashed after name part root inner) (rootMember : root ∈ nodes)
    (member : inner ∈ nodes) (points : PointsTo (image front parts hashed after) front.length)
    (fits : PartsFit parts hashed) (among : part ∈ parts) :
    Answers (Remembers nodes) ((opened content front parts hashed after).openPartition name)
      (.ok (written inner part.files part.hashed)) := by
  obtain ⟨file, found, made⟩ := cuts.made
  simp only [openPartition, GameCard.root, opened, stated, points.root, cuts.rootMade, SessionM.lift_ok_bind]
  refine (HashedPartition.ofStorage_answers graph rootMember cuts.rootHolds fits.root).step ?_
  simp only [found, made, SessionM.lift_ok_bind]
  exact HashedPartition.ofStorage_answers graph member cuts.holds (fits.each part among)

end Windows

/-- The first partition of a name is opened in any sound workspace, and recovers its files from then on. -/
theorem openPartition_recovers {w : Workspace} (sound : w.Sound) (member : content ∈ w.nodes)
    (holds : content.Holds (image front parts hashed after))
    (points : PointsTo (image front parts hashed after) front.length) (fits : PartsFit parts hashed)
    (found : parts.find? (·.name == name) = some part) :
    ∃ partition, ((opened content front parts hashed after).openPartition name).result w.session = .ok partition ∧
      RecoversAll (w.left ((opened content front parts hashed after).openPartition name)) partition part.files
        part.hashed := by
  obtain ⟨root, inner, cuts⟩ := windows holds (sound.graph.size_lt content member) found
  have both := cuts.sound sound member
  obtain ⟨gives, remembers⟩ := cuts.openPartition_answers both.graph (.tail _ (.head _)) (.head _) points fits
    (List.mem_of_find?_eq_some found) _ both.remembers
  have left : (w.left ((opened content front parts hashed after).openPartition name)).Sound :=
    ⟨sound.graph, remembers.mono fun node old => .tail _ (.tail _ old)⟩
  -- the windows are made anew in every later workspace
  exact ⟨_, gives, HashedPartition.recovers_written cuts.holds fun later steps =>
    ⟨_, .head _, cuts.sound (steps.sound left) (steps.nodes_subset _ member)⟩⟩

/-- A hashed partition that was written is read back from any storage that begins with its bytes: its files are listed
    in their order, open to their contents and are valid. A card whose header points to a written root of such
    partitions has those that the root lists, and the first of a name is opened and recovers its files. -/
theorem recovers_partitions :
    (∀ {w : Workspace} {content : Storage} {files : List (String × Bytes)} {hashed : Nat} {after : Bytes},
      Steps {} w → content ∈ w.nodes →
      content.readAll.result w.session = .ok (HashedPartition.image files hashed ++ after) → Fits files hashed →
      ∃ partition, (HashedPartition.ofStorage content).result w.session = .ok partition ∧
        RecoversAll (w.left (HashedPartition.ofStorage content)) partition files hashed) ∧
    ∀ {w : Workspace} {content : Storage} {front after : Bytes} {parts : List Part} {hashed : Nat},
      Steps {} w → content ∈ w.nodes → content.readAll.result w.session = .ok (image front parts hashed after) →
      PointsTo (image front parts hashed after) front.length → PartsFit parts hashed →
      ∃ card, (ofStorage content).result w.session = .ok card ∧
        (∀ name, card.hasPartition name = true ↔ ∃ part ∈ parts, part.name = name) ∧
        ∀ name part, parts.find? (·.name == name) = some part → ∀ later, Steps (w.left (ofStorage content)) later →
          ∃ partition, (card.openPartition name).result later.session = .ok partition ∧
            RecoversAll (later.left (card.openPartition name)) partition part.files part.hashed := by
  refine ⟨HashedPartition.recovers_stored, ?_⟩
  intro w content front after parts hashed reached member reads points fits
  have sound := Workspace.sound_of_steps reached
  have holds := Storage.Holds.of_readAll reached member reads
  obtain ⟨gives, remembers⟩ := ofStorage_answers sound.graph member holds points fits _ sound.remembers
  have left : (w.left (ofStorage content)).Sound := ⟨sound.graph, remembers⟩
  exact ⟨_, gives, fun name => hasPartition_opened, fun name part found later steps =>
    openPartition_recovers (steps.sound left) (steps.nodes_subset _ member) holds points fits found⟩

/-! ### A card with two partitions of one name -/

def sampleFront : Bytes :=
  Bytes.zeros 0x1100 ++ Bytes.ofAscii "HEAD" ++ Bytes.zeros 0x2C ++ LittleEndian.encode 8 0x1200 ++ Bytes.zeros 0xC8

def sampleParts : List Part :=
  [⟨"secure", [("é", [1, 2]), ("", [])], 1⟩, ⟨"logo", [], 0⟩, ⟨"secure", [("a", [3])], 9⟩]

def sampleImage : Bytes := image sampleFront sampleParts 0x200 [0]

/-- A partition with a byte behind it. -/
def samplePartition : Bytes := HashedPartition.image [("é", [1, 2]), ("", [])] 1 ++ [0]

theorem recovers_partitions_sample :
    let content := Storage.ofBytes sampleImage
    let single := Storage.ofBytes samplePartition
    let w := (Workspace.add {} content).add single
    Steps {} w ∧ content ∈ w.nodes ∧ content.readAll.result w.session = .ok sampleImage ∧
    single ∈ w.nodes ∧ single.readAll.result w.session = .ok samplePartition ∧
    Fits [("é", [1, 2]), ("", [])] 1 ∧ PointsTo sampleImage sampleFront.length ∧ PartsFit sampleParts 0x200 ∧
    (∃ partition, (HashedPartition.ofStorage single).result w.session = .ok partition ∧
      RecoversAll (w.left (HashedPartition.ofStorage single)) partition [("é", [1, 2]), ("", [])] 1) ∧
    ∃ card, (ofStorage content).result w.session = .ok card ∧ card.hasPartition "logo" = true ∧
      card.hasPartition "update" = false ∧ ∃ partition,
        (card.openPartition "secure").result (w.left (ofStorage content)).session = .ok partition ∧
        RecoversAll ((w.left (ofStorage content)).left (card.openPartition "secure")) partition
          [("é", [1, 2]), ("", [])] 1 := by
  intro content single w
  obtain ⟨small, singleSmall, singleFits, points, fits⟩ : sampleImage.length < UInt64.size ∧
      samplePartition.length < UInt64.size ∧ Fits [("é", [1, 2]), ("", [])] 1 ∧
      PointsTo sampleImage sampleFront.length ∧ PartsFit sampleParts 0x200 := by decide +kernel
  rw [← List.size_toArray] at small singleSmall
  have reached : Steps {} w := .step (.step .refl (.memory small)) (.memory singleSmall)
  have member : content ∈ w.nodes := .tail _ (.head _)
  have reads : content.readAll.result w.session = .ok sampleImage := readAll_ofBytes _ _
  have singleMember : single ∈ w.nodes := .head _
  have singleReads : single.readAll.result w.session = .ok samplePartition := readAll_ofBytes _ _
  obtain ⟨card, read, has, opens⟩ := recovers_partitions.2 reached member reads points fits
  have logo : card.hasPartition "logo" = true := (has _).mpr ⟨_, .tail _ (.head _), rfl⟩
  have update : card.hasPartition "update" = false := by
    rw [Bool.eq_false_iff, ne_eq, has]
    decide
  exact ⟨reached, member, reads, singleMember, singleReads, singleFits, points, fits,
    recovers_partitions.1 reached singleMember singleReads singleFits, card, read, logo, update,
    opens "secure" _ rfl _ .refl⟩

end GameCard

end SealedContent
