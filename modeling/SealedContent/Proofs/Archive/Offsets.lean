import SealedContent.Proofs.Archive.HashedPartition
import SealedContent.Proofs.Archive.Partition
import SealedContent.Proofs.RomImage.RoundTrip
import SealedContent.Proofs.Storage.Lengths
import SealedContent.Proofs.Storage.Yielding

/-! # Where the files of archives are opened

An archive states where its data start and where each file lies behind that, as numbers of 64 bits. As long as their
sum is one too, a file is opened exactly there or refused as out of range. A longer sum is not formed, and the program
stops (`openFile_behind`). Archives may state such offsets (`openFile_behind_stated`).
-/

namespace SealedContent

open Workspace (Steps StepsOf)

/-! ## Windows behind a start -/

namespace Storage

/-- What is opened at a position: the window there, or nothing where it does not lie inside the storage. -/
inductive OpensAt (storage : Storage) (position size : Nat) : Except Error Storage → Prop where
  | window {cut : Storage} (inside : position + size ≤ storage.size) (sized : cut.size = size)
      (bytes : ∀ i < size, cut.byte? i = storage.byte? (position + i)) : OpensAt storage position size (.ok cut)
  | outside (beyond : storage.size < position + size) :
      OpensAt storage position size (.error (.outOfRange position size storage.size))

/-- What is opened behind a start. All three numbers have 64 bits, and so must the sum of the first two. -/
structure OpensBehind (storage : Storage) (start offset size : Nat) (opened : Except Error Storage) : Prop where
  start_lt : start < UInt64.size
  offset_lt : offset < UInt64.size
  size_lt : size < UInt64.size
  exact : start + offset < UInt64.size → storage.OpensAt (start + offset) size opened
  overflow : UInt64.size ≤ start + offset → opened = .error .overflow

variable {storage : Storage} {start offset size : Nat}

theorem opensAt_window (storage : Storage) (position size : Nat) :
    storage.OpensAt position size (storage.window position size) := by
  by_cases inside : position + size ≤ storage.size
  · obtain ⟨cut, made⟩ := window_ok inside
    rw [made]
    exact .window inside (size_window made).1 fun i before => by rw [byte?_window made, if_pos before]
  · have refused : storage.window position size = .error (.outOfRange position size storage.size) := by
        simp [window, Nat.lt_of_not_le inside]
    rw [refused]
    exact .outside (by omega)

theorem opensBehind_windowBehind (startShort : start < UInt64.size) (offsetShort : offset < UInt64.size)
    (sizeShort : size < UInt64.size) :
    storage.OpensBehind start offset size (storage.windowBehind start offset size) := by
  refine ⟨startShort, offsetShort, sizeShort, fun small => ?_, windowBehind_overflow⟩
  rw [windowBehind_eq small]
  exact storage.opensAt_window _ _

end Storage

/-! ## The numbers that archives state -/

variable {side : Readable} {start : Nat}

/-- The offset and the size of a file are numbers of 64 bits. -/
structure ArchiveFile.Stated (file : ArchiveFile) : Prop where
  offset : file.offset < UInt64.size
  size : file.size < UInt64.size

/-- What holds of the entries with any name holds of the files. The magic stands in front of the table. -/
theorem ArchiveTable.read_ensures {File : Type} {entry : ReaderM (Nat × (String → File))} {property : File → Prop}
    {entrySize : Nat} (magic : String)
    (each : ∀ start, YieldsAt side start entry (fun named => ∀ name, property (named.2 name)) (start + entrySize)) :
    Ensures side start (ArchiveTable.read magic entrySize entry) fun table =>
      (∀ file ∈ table.files, property file) ∧
      side.storage.byte?.window? start magic.length = some (.ofAscii magic) ∧
      table.dataOffset ≤ start + (headerSize + 256 ^ 4 * entrySize + 256 ^ 4) := by
  refine .bind .position fun base same => ?_
  subst same
  refine .bind (.magic magic) fun _ found => .bind (.number 4) fun count countShort =>
    .bind (.number 4) fun namesSize namesShort => .bind (.skip 4) fun _ _ =>
    .bind (.repeated count each) fun entries all => .bind (.field namesSize) fun names _ => ?_
  have files (start : Nat) : YieldsAt side start (entries.mapM fun item => do
      return item.2 (Utf8.decodeLossy (← names.terminatedAt item.1)) : ReaderM (List File))
      (fun files => ∀ file ∈ files, property file) start :=
    .mapM fun named among => .bind (.lift _) fun text _ => .pure (all named among _)
  refine .bind (files _) fun files all => .pure ⟨all, found, ?_⟩
  have rows := Nat.mul_le_mul_right entrySize countShort.le
  dsimp only
  omega

/-- What a table says of its files, read at a position. -/
structure ArchiveTable.StatedAt {File : Type} (side : Readable) (start : Nat) (magic : String)
    (file : File → ArchiveFile) (table : ArchiveTable File) : Prop where
  files : ∀ listed ∈ table.files, (file listed).Stated
  magic : side.storage.byte?.window? start magic.length = some (.ofAscii magic)
  start : table.dataOffset < start + UInt64.size

theorem Partition.readTable_ensures :
    Ensures side start Partition.readTable (ArchiveTable.StatedAt side start Partition.magic id) := by
  have entry (start : Nat) : YieldsAt side start Partition.entry (fun named => ∀ name, (named.2 name).Stated)
      (start + Partition.entrySize) :=
    .bind (.number 8) fun _ offsetShort => .bind (.number 8) fun _ sizeShort => .bind (.number 4) fun _ _ =>
      .bind (.skip 4) fun _ _ => .pure fun _ => ⟨offsetShort, sizeShort⟩
  refine (ArchiveTable.read_ensures _ entry).imp fun table ⟨files, magic, data⟩ => ⟨files, magic, ?_⟩
  exact Nat.lt_of_le_of_lt data (Nat.add_lt_add_left (by decide) start)

theorem HashedPartition.readTable_ensures : Ensures side start HashedPartition.readTable
    (ArchiveTable.StatedAt side start HashedPartition.magic HashedFile.toArchiveFile) := by
  have entry (start : Nat) : YieldsAt side start HashedPartition.entry
      (fun named => ∀ name, (named.2 name).toArchiveFile.Stated) (start + HashedPartition.entrySize) :=
    .bind (.number 8) fun _ offsetShort => .bind (.number 8) fun _ sizeShort => .bind (.number 4) fun _ _ =>
      .bind (.number 4) fun _ _ => .bind (.skip 8) fun _ _ => .bind (.taken Sha256.size) fun _ _ =>
      .pure fun _ => ⟨offsetShort, sizeShort⟩
  have ensures : Ensures side start HashedPartition.readTable fun table =>
      (∀ file ∈ table.files, file.toArchiveFile.Stated) ∧ _ := ArchiveTable.read_ensures _ entry
  refine ensures.imp fun table ⟨files, magic, data⟩ => ⟨files, magic, ?_⟩
  exact Nat.lt_of_le_of_lt data (Nat.add_lt_add_left (by decide) start)

theorem RomHeader.read_ensures :
    Ensures side start RomHeader.read fun header => header.dataOffset < UInt64.size := by
  have region {start : Nat} : YieldsAt side start RomHeader.region (fun _ => True) (start + 8 + 8) :=
    .bind (.number 8) fun _ _ => .bind (.number 8) fun _ _ => .pure trivial
  refine .bind (.number 8) fun stated _ => ?_
  split
  · exact .throw_bind _ _
  · exact .bind region fun _ _ => .bind region fun _ _ => .bind region fun _ _ => .bind region fun _ _ =>
      .bind (.number 8) fun _ short => .pure short

/-- The files that a walk lists have the offsets and sizes of their entries. -/
theorem RomTables.walk_stated {tables : RomTables} {listing : RomListing} (walked : tables.walk = .ok listing) :
    ∀ file ∈ listing.files, file.offset < UInt64.size ∧ file.size < UInt64.size := by
  intro file listed
  obtain ⟨-, rfl⟩ | ⟨visits, -, rfl⟩ := walk_eq_ok_iff.mp walked
  · cases listed
  · obtain ⟨⟨entry, names⟩, -, found⟩ := List.mem_filterMap.mp listed
    cases entry with
    | directory offset => cases found
    | file offset =>
      cases found
      exact ⟨Bytes.fieldAt_lt _ _ 8, Bytes.fieldAt_lt _ _ 8⟩

/-! ## Opening files -/

/-- A file that an accepted archive lists is opened behind the start of the data, as a window of exactly its size, or
    is refused as out of range. Where the sum of the two numbers that the archive states has more than 64 bits, the
    program stops instead. -/
theorem openFile_behind {admits : StorageCipher → Nat → Prop} {w : Workspace} (reached : StepsOf admits {} w)
    {content : Storage} (member : content ∈ w.nodes) :
    (∀ partition, (Partition.ofStorage content).result w.session = .ok partition →
      ∀ file ∈ partition.table.files,
        content.OpensBehind partition.table.dataOffset file.offset file.size (partition.openFile file)) ∧
    (∀ partition, (HashedPartition.ofStorage content).result w.session = .ok partition →
      ∀ file ∈ partition.table.files,
        content.OpensBehind partition.table.dataOffset file.offset file.size (partition.openFile file)) ∧
    ∀ image, (RomImage.ofStorage content).result w.session = .ok image → ∀ file ∈ image.listing.files,
      content.OpensBehind image.header.dataOffset file.offset file.size (image.openFile file) := by
  have sound := Workspace.sound_of_steps reached
  let side := sound.readable member
  have kept : side.kept w.session := sound.remembers
  refine ⟨fun partition opens file listed => ?_, fun partition opens file listed => ?_,
    fun image opens file listed => ?_⟩
  · obtain ⟨table, read, opens⟩ := SessionM.bind_eq_ok opens
    cases opens
    obtain ⟨stated, -⟩ := (@Partition.readTable_ensures side 0).run' kept read
    obtain ⟨offsetShort, sizeShort⟩ := stated.files file listed
    exact Storage.opensBehind_windowBehind (by simpa using stated.start) offsetShort sizeShort
  · obtain ⟨table, read, opens⟩ := SessionM.bind_eq_ok opens
    cases opens
    obtain ⟨stated, -⟩ := (@HashedPartition.readTable_ensures side 0).run' kept read
    obtain ⟨offsetShort, sizeShort⟩ := stated.files file listed
    exact Storage.opensBehind_windowBehind (by simpa using stated.start) offsetShort sizeShort
  · obtain ⟨header, read, opens⟩ := SessionM.bind_eq_ok opens
    obtain ⟨directories, -, opens⟩ := SessionM.bind_eq_ok opens
    obtain ⟨files, -, opens⟩ := SessionM.bind_eq_ok opens
    obtain ⟨listing, walked, opens⟩ := SessionM.bind_eq_ok opens
    cases opens
    obtain ⟨offsetShort, sizeShort⟩ := RomTables.walk_stated walked file listed
    obtain ⟨start, -⟩ := (@RomHeader.read_ensures side 0).run' kept read
    exact Storage.opensBehind_windowBehind start offsetShort sizeShort

/-! ### Archives that state files far behind their data -/

/-- The first file lies at the start of the data, and the second one is said to lie so far behind it that the sum of
    the two numbers has a bit too many. -/
def farFiles : List (String × Bytes) := [("a", [1, 2, 3, 4]), ("b", [5, 6])]

def farOffset (dataOffset offset : Nat) : Nat := if offset = 0 then 0 else UInt64.size - dataOffset

def farPartition : Bytes :=
  ArchiveTable.image Partition.magic
    ((ArchiveTable.rows farFiles).map fun row =>
      Partition.entryBytes (farOffset 0x44 row.offset) row.file.2.length row.nameOffset)
    (ArchiveTable.names farFiles ++ []) (ArchiveTable.contents farFiles)

def farHashed : Bytes :=
  ArchiveTable.image HashedPartition.magic
    ((ArchiveTable.rows farFiles).map fun row =>
      HashedPartition.entryBytes (farOffset 0x94 row.offset) row.file.2.length row.nameOffset 0 (.zeros 0x20))
    (ArchiveTable.names farFiles ++ []) (ArchiveTable.contents farFiles)

/-- The second of two files lies `0x10` bytes behind the first one, and the data is stated to start `0x10` bytes in
    front of where the numbers end. -/
def farTables : RomTables := RomImage.tables [("a", [1]), ("b", [2, 3])]

def farRom : Bytes :=
  RomImage.headerBytes farTables.directories.length farTables.files.length (UInt64.size - 0x10) ++
    farTables.directories ++ farTables.files

section
variable {nodes : List Storage} (graph : Coherent nodes) {content : Storage} (member : content ∈ nodes)
include graph member

theorem farPartition_answers (holds : content.Holds farPartition) :
    Answers (Remembers nodes) (Partition.ofStorage content)
      (.ok ⟨content, ⟨[⟨"a", 0, 4⟩, ⟨"b", UInt64.size - 0x44, 2⟩], 0x44⟩⟩) := by
  have start : content.Holds ([] ++ farPartition ++ []) := by simpa using holds
  obtain ⟨stop, takes⟩ := ArchiveTable.takes_image graph member start (by decide) (by decide) (by decide) rfl
    (fun _ => Partition.length_entryBytes _ _ _) fun row among =>
      Partition.consumes_entry graph (by revert row; decide) (by revert row; decide) (by revert row; decide)
  exact takes.run'.step (.pure _)

theorem farHashed_answers (holds : content.Holds farHashed) :
    Answers (Remembers nodes) (HashedPartition.ofStorage content)
      (.ok ⟨content, ⟨[⟨⟨"a", 0, 4⟩, 0, .zeros 0x20⟩, ⟨⟨"b", UInt64.size - 0x94, 2⟩, 0, .zeros 0x20⟩], 0x94⟩⟩) := by
  have start : content.Holds ([] ++ farHashed ++ []) := by simpa using holds
  obtain ⟨stop, takes⟩ := ArchiveTable.takes_image graph member start (by decide) (by decide) (by decide) rfl
    (fun _ => HashedPartition.length_entryBytes _ _ _ _ rfl) fun row among =>
      HashedPartition.consumes_entry graph (by revert row; decide) (by revert row; decide) (by revert row; decide)
        (by decide) rfl
  rw [ArchiveTable.length_header rfl fun _ => HashedPartition.length_entryBytes _ _ _ _ rfl] at takes
  exact takes.run'.step (.pure _)

theorem farRom_answers (holds : content.Holds farRom) : ∃ header : RomHeader,
    header.dataOffset = UInt64.size - 0x10 ∧ Answers (Remembers nodes) (RomImage.ofStorage content)
      (.ok ⟨content, header, ⟨[], [⟨"/a", 0, 1⟩, ⟨"/b", 0x10, 2⟩]⟩⟩) := by
  have checked : (RomHeader.size ≤ farRom.length ∧ farRom.fieldAt 0 8 = RomHeader.size) ∧
      RomHeader.ofBytes farRom = ⟨⟨0x50, 0⟩, ⟨0x50, 0x18⟩, ⟨0x68, 0⟩, ⟨0x68, 0x48⟩, UInt64.size - 0x10⟩ ∧
      (0x68 + 0x48 ≤ farRom.length ∧ farRom.window 0x50 0x18 = farTables.directories ∧
        farRom.window 0x68 0x48 = farTables.files) ∧
      farTables.walk.toOption = some ⟨[], [⟨"/a", 0, 1⟩, ⟨"/b", 0x10, 2⟩]⟩ := by decide +kernel
  obtain ⟨⟨long, stated⟩, header, ⟨inside, directories, files⟩, walk⟩ := checked
  have readHeader := RomHeader.read_answers graph member holds long stated
  rw [header] at readHeader
  have readDirectories := holds.answers graph member (show 0x50 + 0x18 ≤ farRom.length by omega)
  rw [directories] at readDirectories
  have readFiles := holds.answers graph member inside
  rw [files] at readFiles
  refine ⟨⟨⟨0x50, 0⟩, ⟨0x50, 0x18⟩, ⟨0x68, 0⟩, ⟨0x68, 0x48⟩, UInt64.size - 0x10⟩, rfl,
    readHeader.step (readDirectories.step (readFiles.step ?_))⟩
  rw [show RomTables.walk ⟨farTables.directories, farTables.files⟩ = _ from toOption_eq_some_iff.mp walk]
  exact .pure _

end

theorem openFile_behind_stated :
    let first := Storage.ofBytes farPartition
    let second := Storage.ofBytes farHashed
    let third := Storage.ofBytes farRom
    let w := ((Workspace.add {} first).add second).add third
    Steps {} w ∧ (first ∈ w.nodes ∧ second ∈ w.nodes ∧ third ∈ w.nodes) ∧
    (∃ partition, (Partition.ofStorage first).result w.session = .ok partition ∧
      ∃ near ∈ partition.table.files, ∃ far ∈ partition.table.files,
        first.OpensAt 0x44 4 (partition.openFile near) ∧ partition.openFile far = .error .overflow) ∧
    (∃ partition, (HashedPartition.ofStorage second).result w.session = .ok partition ∧
      ∃ near ∈ partition.table.files, ∃ far ∈ partition.table.files,
        second.OpensAt 0x94 4 (partition.openFile near) ∧ partition.openFile far = .error .overflow) ∧
    ∃ image, (RomImage.ofStorage third).result w.session = .ok image ∧
      ∃ near ∈ image.listing.files, ∃ far ∈ image.listing.files,
        third.OpensAt (UInt64.size - 0x10) 1 (image.openFile near) ∧ image.openFile far = .error .overflow := by
  intro first second third w
  obtain ⟨firstSmall, secondSmall, thirdSmall⟩ : farPartition.length < UInt64.size ∧
      farHashed.length < UInt64.size ∧ farRom.length < UInt64.size := by decide +kernel
  have reached : Steps {} w :=
    .step (.step (.step .refl (.ofBytes firstSmall)) (.ofBytes secondSmall)) (.ofBytes thirdSmall)
  have members : first ∈ w.nodes ∧ second ∈ w.nodes ∧ third ∈ w.nodes :=
    ⟨.tail _ (.tail _ (.head _)), .tail _ (.head _), .head _⟩
  obtain ⟨firstMember, secondMember, thirdMember⟩ := members
  have sound := Workspace.sound_of_steps reached
  obtain ⟨opensFirst, -⟩ := farPartition_answers sound.graph firstMember (.ofBytes _) _ sound.remembers
  obtain ⟨opensSecond, -⟩ := farHashed_answers sound.graph secondMember (.ofBytes _) _ sound.remembers
  obtain ⟨header, start, answers⟩ := farRom_answers sound.graph thirdMember (.ofBytes _)
  obtain ⟨opensThird, -⟩ := answers _ sound.remembers
  have behindFirst := (openFile_behind reached firstMember).1 _ opensFirst
  have behindSecond := (openFile_behind reached secondMember).2.1 _ opensSecond
  have behindThird := (openFile_behind reached thirdMember).2.2 _ opensThird
  simp only [start] at behindThird
  exact ⟨reached, ⟨firstMember, secondMember, thirdMember⟩,
    ⟨_, opensFirst, _, .head _, _, .tail _ (.head _), (behindFirst _ (.head _)).exact (by decide),
      (behindFirst _ (.tail _ (.head _))).overflow (by decide)⟩,
    ⟨_, opensSecond, _, .head _, _, .tail _ (.head _), (behindSecond _ (.head _)).exact (by decide),
      (behindSecond _ (.tail _ (.head _))).overflow (by decide)⟩,
    ⟨_, opensThird, _, .head _, _, .tail _ (.head _), (behindThird _ (.head _)).exact (by decide),
      (behindThird _ (.tail _ (.head _))).overflow (by decide)⟩⟩

end SealedContent
