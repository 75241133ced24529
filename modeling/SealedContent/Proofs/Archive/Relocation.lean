import SealedContent.Archive.Partition
import SealedContent.Archive.Ticket
import SealedContent.GameCard
import SealedContent.Proofs.Archive.ContentMeta
import SealedContent.Proofs.Archive.GameCard
import SealedContent.Proofs.Archive.Offsets
import SealedContent.Proofs.Storage.Carrying

/-! # Archives between other bytes

What is read of an archive does not depend on where the archive stands: with other bytes around it the same table is
read, only that its data start as far behind as the archive does. The root of a game card, which is read once in
the card and once as a storage of its own, is the same both times: `tables_relocate`.
-/

namespace SealedContent

open Workspace (Steps)

variable {copy : Copy} {distance : Nat}

/-! ## Tables -/

namespace ArchiveTable

variable {File : Type}

/-- The same files, with the data as far behind the target as behind the source. -/
def Moved (copy : Copy) (_ : Nat) (table table' : ArchiveTable File) : Prop :=
  table'.files = table.files ∧ table'.dataOffset + copy.source = table.dataOffset + copy.target

theorem read_carries {magic : String} {entrySize : Nat} {entry : ReaderM (Nat × (String → File))}
    (each : ∀ distance, CarriesOver copy distance entry entry SameValue) :
    CarriesOver copy distance (read magic entrySize entry) (read magic entrySize entry) (Moved copy) := by
  refine .position_bind <| .step (.magic magic) fun _ => .step (.number 4) fun count => .step (.number 4) fun size =>
    .step (.skip 4) fun _ => .bind (.repeated count each) fun _ entries entries' same => ?_
  obtain rfl : entries = entries' := same
  refine .step (.field size) fun names => ?_
  have named : ∀ item ∈ entries, ∀ distance, CarriesOver copy distance
      (do return item.2 (Utf8.decodeLossy (← names.terminatedAt item.1)) : ReaderM File)
      (do return item.2 (Utf8.decodeLossy (← names.terminatedAt item.1))) SameValue :=
    fun item _ _ => .step (.lift _) fun text => .pure rfl
  refine .bind (.mapM named) fun _ files files' same => .pure ⟨same.symm, ?_⟩
  dsimp only
  omega

end ArchiveTable

theorem Partition.readTable_carries :
    CarriesOver copy distance Partition.readTable Partition.readTable (ArchiveTable.Moved copy) :=
  ArchiveTable.read_carries fun _ => .step (.number 8) fun _ => .step (.number 8) fun _ => .step (.number 4) fun _ =>
    .step (.skip 4) fun _ => .pure rfl

theorem HashedPartition.readTable_carries :
    CarriesOver copy distance HashedPartition.readTable HashedPartition.readTable (ArchiveTable.Moved copy) :=
  ArchiveTable.read_carries fun _ => .step (.number 8) fun _ => .step (.number 8) fun _ => .step (.number 4) fun _ =>
    .step (.number 4) fun _ => .step (.skip 8) fun _ => .step (.exactly _) fun _ => .pure rfl

/-! ## Records -/

theorem ContentRecord.read_carries : CarriesOver copy distance ContentRecord.read ContentRecord.read SameValue :=
  .step (.exactly 0x20) fun _ => .step (.exactly 0x10) fun _ => .step (.number 6) fun _ => .step (.number 1) fun _ =>
    .step (.number 1) fun _ => .pure rfl

theorem MetaRecord.read_carries : CarriesOver copy distance MetaRecord.read MetaRecord.read SameValue :=
  .step (.number 8) fun _ => .step (.number 4) fun _ => .step (.number 1) fun _ => .step (.number 1) fun _ =>
    .step (.skip 2) fun _ => .pure rfl

theorem ContentMeta.read_carries : CarriesOver copy 0 ContentMeta.read ContentMeta.read SameValue := by
  refine .position_bind <| .step (.number 8) fun _ => .step (.number 4) fun _ => .step (.number 1) fun _ =>
    .step (.skip 1) fun _ => .step (.number 2) fun extendedSize => .step (.number 2) fun contentCount =>
    .step (.number 2) fun referenceCount => .step (.number 1) fun _ => .step (.skip 3) fun _ =>
    .step (.number 4) fun _ => .step (.skip 4) fun _ => .step (.exactly extendedSize) fun _ => ?_
  -- the records are looked for where the extended header ends
  have here (base : Nat) : base + 0 + headerSize + extendedSize =
      base + (0 + 8 + 4 + 1 + 1 + 2 + 2 + 2 + 1 + 3 + 4 + 4 + extendedSize) := by
    rw [headerSize]
    omega
  rw [here copy.source, here copy.target]
  refine .step .stay fun _ => ?_
  refine .bind (.repeated contentCount fun _ => ContentRecord.read_carries) fun _ _ _ contents => ?_
  refine .bind (.repeated referenceCount fun _ => MetaRecord.read_carries) fun _ _ _ references => .pure ?_
  rw [show _ = _ from contents, show _ = _ from references]
  rfl

theorem Ticket.read_carries (origin : copy.source = 0) : CarriesOver copy 0 Ticket.read Ticket.read SameValue := by
  refine .position_bind <| .step (.number 4) fun code => .step (.lift _) fun signature => ?_
  have short : copy.source + (4 + signature.size) < UInt64.size := by
    rw [origin]
    cases signature <;> decide
  have place (base : Nat) : base + 0 + 4 + signature.size = base + (4 + signature.size) := by omega
  rw [place copy.source, place copy.target]
  exact .jump (by decide) short fun _ => .step (.exactly 0x100) fun _ => .step (.number 1) fun _ =>
    .step (.number 1) fun _ => .step (.lift _) fun _ => .step (.number 2) fun _ => .step (.number 1) fun _ =>
    .step (.number 1) fun _ => .step (.number 2) fun _ => .step (.skip 8) fun _ => .step (.number 8) fun _ =>
    .step (.number 8) fun _ => .step .block fun _ => .step (.number 4) fun _ => .pure rfl

/-! ## Archives between other bytes -/

/-- The bytes of one node stand in another one, between other bytes. -/
def Copy.between {w outer : Workspace} (sound : w.Sound) (outerSound : outer.Sound) {content surrounded : Storage}
    (member : content ∈ w.nodes) (outerMember : surrounded ∈ outer.nodes) {before inner after : Bytes}
    (holds : content.Holds inner) (surrounds : surrounded.Holds (before ++ inner ++ after)) : Copy where
  left := sound.readable member
  right := outerSound.readable outerMember
  source := 0
  target := before.length
  bytes i byte found := by
    have there : inner[i]? = some byte := by rw [← holds.byte, ← Nat.zero_add i]; exact found
    obtain ⟨inside, -⟩ := List.getElem?_eq_some_iff.mp there
    have moved : surrounded.byte? (before.length + i) = some byte := by
      rw [surrounds.byte, List.append_assoc, List.getElem?_append_right (by omega), Nat.add_sub_cancel_left,
        List.getElem?_append_left inside, there]
    exact moved
  room := by
    have whole := surrounds.size
    have part := holds.size
    simp only [List.length_append] at whole
    show content.size + before.length ≤ surrounded.size + 0
    omega
  outside := byte?_outside sound.graph member
  complete := Readable.complete_ofNode outerSound.graph outerMember surrounds.fits
  left_lt := sound.graph.size_lt content member
  right_lt := outerSound.graph.size_lt surrounded outerMember

/-- Wherever the bytes stand that a parser succeeds on, it gives the value moved there. -/
def Relocates {α : Type} (parser : ReaderM α) (moved : Nat → α → α) : Prop :=
  ∀ {w outer : Workspace} {content surrounded : Storage} {before inner after : Bytes} {value : α},
    Steps {} w → content ∈ w.nodes → content.readAll.result w.session = .ok inner →
    Steps {} outer → surrounded ∈ outer.nodes →
    surrounded.readAll.result outer.session = .ok (before ++ inner ++ after) →
    (parser.run' ⟨content, 0⟩).result w.session = .ok value →
    (parser.run' ⟨surrounded, before.length⟩).result outer.session = .ok (moved before.length value)

theorem relocates_of_carries {α : Type} {parser : ReaderM α} {moved : Nat → α → α}
    {related : Copy → Nat → α → α → Prop}
    (carries : ∀ copy, copy.source = 0 → CarriesOver copy 0 parser parser (related copy))
    (same : ∀ copy further value value', copy.source = 0 → related copy further value value' →
      value' = moved copy.target value) : Relocates parser moved := by
  intro w outer content surrounded before inner after value reached member reads outerReached outerMember outerReads
    gives
  have sound := Workspace.sound_of_steps reached
  have outerSound := Workspace.sound_of_steps outerReached
  have holds := Storage.Holds.of_readAll reached member reads
  have surrounds := Storage.Holds.of_readAll outerReached outerMember outerReads
  let copy := Copy.between sound outerSound member outerMember holds surrounds
  obtain ⟨reader, left, ran⟩ := ReaderM.run'_eq_ok gives
  obtain ⟨further, value', holds, gives'⟩ :=
    (carries copy rfl).run' (Nat.zero_le _) sound.remembers outerSound.remembers ran
  rw [same copy further value value' rfl holds] at gives'
  exact gives'

theorem relocates_of_same {α : Type} {parser : ReaderM α}
    (carries : ∀ copy, copy.source = 0 → CarriesOver copy 0 parser parser SameValue) :
    Relocates parser fun _ value => value :=
  @relocates_of_carries _ _ _ (fun _ => SameValue) carries fun _ _ _ _ _ same => same.symm

/-- In memory, as long as the bytes can be addressed. -/
theorem Relocates.ofBytes {α : Type} {parser : ReaderM α} {moved : Nat → α → α} (relocates : Relocates parser moved)
    {before inner after : Bytes} {value : α} (short : (before ++ inner ++ after).length < UInt64.size)
    (gives : (parser.run' ⟨.ofBytes inner, 0⟩).result {} = .ok value) :
    (parser.run' ⟨.ofBytes (before ++ inner ++ after), before.length⟩).result {} = .ok (moved before.length value) := by
  have innerShort : inner.length < UInt64.size := by
    simp only [List.length_append] at short
    omega
  exact @relocates (.add {} (.ofBytes inner)) (.add {} (.ofBytes (before ++ inner ++ after))) _ _ _ _ _ _
    (.step .refl (.ofBytes innerShort)) (.head _) (readAll_ofBytes _ _) (.step .refl (.ofBytes short)) (.head _)
    (readAll_ofBytes _ _) gives

/-- The table as it is read behind other bytes. -/
def ArchiveTable.movedBy {File : Type} (distance : Nat) (table : ArchiveTable File) : ArchiveTable File :=
  ⟨table.files, table.dataOffset + distance⟩

theorem ArchiveTable.Moved.eq_movedBy {File : Type} {table table' : ArchiveTable File} (origin : copy.source = 0)
    (moved : Moved copy distance table table') : table' = table.movedBy copy.target := by
  obtain ⟨files, data⟩ := moved
  rw [origin, Nat.add_zero] at data
  cases table'
  rw [movedBy, ← files, ← data]

/-! ## The root of a game card -/

/-- The table of the root was read in the card, where the header says. -/
theorem CardHeader.read_ensures {side : Readable} : Ensures side 0 CardHeader.read fun header =>
    ∃ session reader left, side.kept session ∧
      (HashedPartition.readTable.run.run ⟨side.storage, header.rootHeader.offset⟩).run session =
        ((.ok header.root, reader), left) ∧
      header.root.StatedAt side header.rootHeader.offset HashedPartition.magic HashedFile.toArchiveFile := by
  refine .bind (.seekTo (by decide)) fun _ _ => .bind (.magic _) fun _ _ => .bind (.number 4) fun _ _ =>
    .bind (.skip 4) fun _ _ => .bind (.number 1) fun _ _ => .bind (.number 1) fun _ _ => .bind (.number 1) fun _ _ =>
    .bind (.number 1) fun _ _ => .bind (.number 8) fun _ _ => .bind (.number 4) fun _ _ => .bind (.skip 4) fun _ _ =>
    .bind (.taken 0x10) fun _ _ => .bind (.number 8) fun rootOffset short => .bind (.number 8) fun _ _ =>
    .bind (.taken _) fun _ _ => .bind (.taken _) fun _ _ => .bind (.number 4) fun _ _ => .bind (.skip 12) fun _ _ =>
    .bind (.taken 0x70) fun _ _ => .bind (.seekTo short) fun _ _ => ?_
  refine (Ensures.last HashedPartition.readTable_ensures).imp fun header found => ?_
  obtain ⟨session, root, reader, left, kept, ran, stated, rfl⟩ := found
  exact ⟨session, reader, left, kept, ran, stated⟩

namespace GameCard

/-- What stands in a card from some place on, as a node of its own. -/
def tail {w later : Workspace} (sound : w.Sound) {content root : Storage} (member : content ∈ w.nodes) {start : Nat}
    (laterSound : (later.add root).Sound) (made : content.window start (content.size - start) = .ok root)
    (fits : content.Fits) (inside : start ≤ content.size) : Copy where
  left := sound.readable member
  right := laterSound.readable (.head _)
  source := start
  target := 0
  bytes i byte found := by
    have within : i < content.size - start := by
      by_contra beyond
      have gone := byte?_outside sound.graph member (start + i) (by omega)
      cases gone.symm.trans found
    have there : root.byte? (0 + i) = some byte := by
      rw [Nat.zero_add, byte?_window made, if_pos within]
      exact found
    exact there
  room := by
    have sized := (size_window made).1
    show content.size + 0 ≤ root.size + start
    omega
  outside := byte?_outside sound.graph member
  complete := Readable.complete_ofNode laterSound.graph (.head _) ((Storage.fits_window made).mpr fits)
  left_lt := sound.graph.size_lt content member
  right_lt := laterSound.graph.size_lt root (.head _)

/-- The root partition of a card that was read is opened at any time, with the table that the card's header has. -/
theorem root_reads {w : Workspace} (reached : Steps {} w) {content : Storage} (member : content ∈ w.nodes)
    {card : GameCard} (gives : (ofStorage content).result w.session = .ok card) {later : Workspace}
    (steps : Steps (w.left (ofStorage content)) later) :
    ∃ root, card.root.result later.session = .ok root ∧ root.table.files = card.header.root.files ∧
      root.table.dataOffset + card.header.rootHeader.offset = card.header.root.dataOffset := by
  have sound := Workspace.sound_of_steps reached
  obtain ⟨header, read, gives⟩ := SessionM.bind_eq_ok gives
  cases gives
  obtain ⟨⟨session, reader, left, kept, ran, stated⟩, keeps⟩ :=
    (@CardHeader.read_ensures (sound.readable member)).run' sound.remembers read
  have after : (w.left (ofStorage content)).Sound := by
    refine ⟨sound.graph, ?_⟩
    show Remembers w.nodes ((ofStorage content).after w.session)
    rw [ofStorage, SessionM.after_bind_ok read]
    exact keeps
  have laterSound := steps.sound after
  have laterMember := steps.nodes_subset _ member
  have inside : header.rootHeader.offset < content.size := by
    by_contra beyond
    have gone := byte?_outside sound.graph member (header.rootHeader.offset + 0) (by omega)
    have found : content.byte?.window? header.rootHeader.offset HashedPartition.magic.length = _ := stated.magic
    rw [ByteMap.window?_eq_none (show 0 < HashedPartition.magic.length by decide) gone] at found
    cases found
  obtain ⟨root, made⟩ :=
    @window_ok content header.rootHeader.offset (content.size - header.rootHeader.offset) (by omega)
  let copy := tail sound member (laterSound.slice laterMember made) made
    (Workspace.fits_of_steps reached content member) inside.le
  obtain ⟨further, table, ⟨files, data⟩, opens⟩ :=
    (@HashedPartition.readTable_carries copy 0).run' inside.le kept (laterSound.slice laterMember made).remembers ran
  refine ⟨⟨root, table⟩, ?_, files, data⟩
  simp only [GameCard.root, made, SessionM.lift_ok_bind]
  exact SessionM.result_bind_ok opens _

end GameCard

/-- Archives are read wherever they stand and whatever stands around them: the table of a partition with its data as
    far behind as the archive, content meta and tickets as they are. The root of a card that was read is opened at any
    time and lists what the card's header does, with its data counted from where it starts itself. -/
theorem tables_relocate :
    Relocates Partition.readTable ArchiveTable.movedBy ∧ Relocates HashedPartition.readTable ArchiveTable.movedBy ∧
    Relocates ContentMeta.read (fun _ table => table) ∧ Relocates Ticket.read (fun _ ticket => ticket) ∧
    ∀ {w : Workspace} {content : Storage} {card : GameCard}, Steps {} w → content ∈ w.nodes →
      (GameCard.ofStorage content).result w.session = .ok card →
      ∀ later, Steps (w.left (GameCard.ofStorage content)) later →
        ∃ root, card.root.result later.session = .ok root ∧ root.table.files = card.header.root.files ∧
          root.table.dataOffset + card.header.rootHeader.offset = card.header.root.dataOffset := by
  refine ⟨?_, ?_, ?_, ?_, fun reached member gives later steps =>
    GameCard.root_reads reached member gives steps⟩
  · exact relocates_of_carries (fun _ _ => Partition.readTable_carries) fun _ _ _ _ => ArchiveTable.Moved.eq_movedBy
  · exact relocates_of_carries (fun _ _ => HashedPartition.readTable_carries)
      fun _ _ _ _ => ArchiveTable.Moved.eq_movedBy
  · exact relocates_of_same fun _ _ => ContentMeta.read_carries
  · exact relocates_of_same fun _ => Ticket.read_carries

/-! ### Small archives behind one byte and in front of two -/

def barePartition : Bytes := Partition.image [("a", [1])]

def bareHashed : Bytes := HashedPartition.image [("a", [1])] 1

def bareTicket : Bytes := LittleEndian.encode 4 0x10005 ++ Bytes.zeros (SignatureKind.ecdsaSha256.size + 0x180)

/-- A card whose root lists one empty partition. -/
def bareParts : List GameCard.Part := [⟨"logo", [], 0⟩]

def bareCard : Bytes := GameCard.image GameCard.sampleFront bareParts 0 []

theorem exists_of_isOk {α : Type} {outcome : Except Error α} (succeeds : outcome.isOk = true) :
    ∃ value, outcome = .ok value := by
  cases outcome with
  | ok value => exact ⟨value, rfl⟩
  | error error => cases succeeds

theorem tables_relocate_bare :
    (∃ table, (Partition.readTable.run' ⟨.ofBytes barePartition, 0⟩).result {} = .ok table ∧
      (Partition.readTable.run' ⟨.ofBytes ([7] ++ barePartition ++ [8, 9]), 1⟩).result {} = .ok (table.movedBy 1)) ∧
    (∃ table, (HashedPartition.readTable.run' ⟨.ofBytes bareHashed, 0⟩).result {} = .ok table ∧
      (HashedPartition.readTable.run' ⟨.ofBytes ([7] ++ bareHashed ++ [8, 9]), 1⟩).result {} =
        .ok (table.movedBy 1)) ∧
    (∃ table, (ContentMeta.read.run' ⟨.ofBytes ContentMeta.samplePatch, 0⟩).result {} = .ok table ∧
      (table.contents.length, table.references.length) = (1, 1) ∧
      (ContentMeta.read.run' ⟨.ofBytes ([7] ++ ContentMeta.samplePatch ++ [8, 9]), 1⟩).result {} = .ok table) ∧
    (∃ ticket, (Ticket.read.run' ⟨.ofBytes bareTicket, 0⟩).result {} = .ok ticket ∧
      (Ticket.read.run' ⟨.ofBytes ([7] ++ bareTicket ++ [8, 9]), 1⟩).result {} = .ok ticket) ∧
    let content := Storage.ofBytes bareCard
    let w := Workspace.add {} content
    Steps {} w ∧ content ∈ w.nodes ∧ ∃ card, (GameCard.ofStorage content).result w.session = .ok card ∧
      ∃ root, card.root.result (w.left (GameCard.ofStorage content)).session = .ok root ∧
        root.table.files = card.header.root.files ∧
        root.table.dataOffset + card.header.rootHeader.offset = card.header.root.dataOffset := by
  have checked : ((Partition.readTable.run' ⟨.ofBytes barePartition, 0⟩).result {}).isOk = true ∧
      ((HashedPartition.readTable.run' ⟨.ofBytes bareHashed, 0⟩).result {}).isOk = true ∧
      ((ContentMeta.read.run' ⟨.ofBytes ContentMeta.samplePatch, 0⟩).result {}).toOption.map (fun table =>
        (table.contents.length, table.references.length)) = some (1, 1) ∧
      ((Ticket.read.run' ⟨.ofBytes bareTicket, 0⟩).result {}).isOk = true := by decide +kernel
  have short : ([7] ++ barePartition ++ [8, 9]).length < UInt64.size ∧
      ([7] ++ bareHashed ++ [8, 9]).length < UInt64.size ∧
      ([7] ++ ContentMeta.samplePatch ++ [8, 9]).length < UInt64.size ∧
      ([7] ++ bareTicket ++ [8, 9]).length < UInt64.size := by decide +kernel
  obtain ⟨partition, hashed, contentMeta, ticket⟩ := checked
  obtain ⟨partitionShort, hashedShort, metaShort, ticketShort⟩ := short
  obtain ⟨partitions, hashedPartitions, metas, tickets, cards⟩ := tables_relocate
  refine ⟨?_, ?_, ?_, ?_, ?_⟩
  · obtain ⟨table, gives⟩ := exists_of_isOk partition
    exact ⟨table, gives, partitions.ofBytes partitionShort gives⟩
  · obtain ⟨table, gives⟩ := exists_of_isOk hashed
    exact ⟨table, gives, hashedPartitions.ofBytes hashedShort gives⟩
  · obtain ⟨table, found, counts⟩ := Option.map_eq_some_iff.mp contentMeta
    have gives := toOption_eq_some_iff.mp found
    exact ⟨table, gives, counts, metas.ofBytes metaShort gives⟩
  · obtain ⟨value, gives⟩ := exists_of_isOk ticket
    exact ⟨value, gives, tickets.ofBytes ticketShort gives⟩
  · intro content w
    obtain ⟨small, points, fits⟩ : bareCard.length < UInt64.size ∧
        CardHeader.PointsTo bareCard GameCard.sampleFront.length ∧ GameCard.PartsFit bareParts 0 := by decide +kernel
    have reached : Steps {} w := .step .refl (.ofBytes small)
    have sound := Workspace.sound_of_steps reached
    have member : content ∈ w.nodes := .head _
    obtain ⟨gives, -⟩ :=
      GameCard.ofStorage_answers sound.graph member (.ofBytes bareCard) points fits w.session sound.remembers
    exact ⟨reached, member, _, gives, cards reached member gives _ .refl⟩

end SealedContent
