import SealedContent.Proofs.RomImage.Built
import SealedContent.Proofs.RomImage.Header
import SealedContent.Proofs.Storage.Parsing

/-! # Written images are read back

The walk of a written image lists every file under its own path, the files of one directory in the order they
were given in, and every directory above a file once. What is opened there are the contents of the file:
`ofStorage_image`.
-/

namespace SealedContent

open Workspace (Step Steps)

namespace RomImage

open RomTables (joined maxDepth)

variable {files : List (String × Bytes)} {path : List String}

/-! ## Files -/

/-- The directories of a file, from the root down. -/
def directoryOf (file : String × Bytes) : List String := (RomSource.ofPath file.1 file.2).directory

variable (files) in
/-- The files in the order in which the walk lists them. -/
def order : List (String × Bytes) := (walked files).flatMap fun path => files.filter (directoryOf · == path)

theorem mem_directoryPaths : path ∈ directoryPaths files ↔ path = [] ∨ ∃ file ∈ files, path <+: directoryOf file := by
  rw [directoryPaths, mem_sourceDirectories]
  simp [sources, directoryOf]

theorem directoryOf_mem {file : String × Bytes} (member : file ∈ files) : directoryOf file ∈ directoryPaths files :=
  mem_directoryPaths.mpr (.inr ⟨file, member, List.prefix_rfl⟩)

/-- No directory is deeper than the files allow. -/
theorem length_le_of_mem (shallow : ∀ file ∈ files, (RomSource.stripped file.1).count '/' ≤ maxDepth)
    (member : path ∈ directoryPaths files) : path.length ≤ maxDepth := by
  obtain rfl | ⟨file, member, leads⟩ := mem_directoryPaths.mp member
  · exact Nat.zero_le _
  · have deep := shallow file member
    rw [← RomSource.length_directory file.1 file.2] at deep
    exact leads.length_le.trans deep

section
variable (shallow : ∀ path ∈ directoryPaths files, path.length ≤ maxDepth)
include shallow

theorem mem_walked : path ∈ walked files ↔ path ∈ directoryPaths files :=
  (preorder_perm rooted_directoryPaths shallow).mem_iff

theorem order_perm : (order files).Perm files :=
  perm_grouped nodup_walked fun _ member => (mem_walked shallow).mpr (directoryOf_mem member)

/-- The files of one directory keep their order. -/
theorem filter_order (folder : String) : (order files).filter (RomSource.folder ·.1 == folder) =
    files.filter (RomSource.folder ·.1 == folder) := by
  by_cases held : ∃ file ∈ files, RomSource.folder file.1 = folder
  · obtain ⟨file, member, rfl⟩ := held
    have same : (fun other : String × Bytes => RomSource.folder other.1 == RomSource.folder file.1) =
        fun other => directoryOf other == directoryOf file := by
      funext other
      rw [Bool.eq_iff_iff, beq_iff_eq, beq_iff_eq]
      exact RomSource.folder_eq_iff
    rw [same]
    exact filter_grouped nodup_walked ((mem_walked shallow).mpr (directoryOf_mem member))
  · -- no file is in the folder, wherever it stands
    have none : ∀ file ∈ files, ¬ (RomSource.folder file.1 == folder) = true :=
      fun file member same => held ⟨file, member, beq_iff_eq.mp same⟩
    rw [List.filter_eq_nil_iff.mpr none,
      List.filter_eq_nil_iff.mpr fun file member => none file ((order_perm shallow).subset member)]

omit shallow in
theorem map_filesIn (member : path ∈ directoryPaths files) : (filesIn files path).map PlacedFile.source =
    (files.filter (directoryOf · == path)).map fun file => RomSource.ofPath file.1 file.2 := by
  have grouped : (orderedSources files).filter (·.directory == path) = (sources files).filter (·.directory == path) :=
    filter_grouped (nodup_sourceDirectories _) member
  have own : (filesIn files path).map PlacedFile.source = (orderedSources files).filter (·.directory == path) := by
    rw [← map_placedFiles, List.filter_map]
    rfl
  rw [own, grouped, sources, List.filter_map]
  rfl

omit shallow in
/-- Every file stands in the image, in the order of the walk. -/
theorem placed_order : List.Forall₂ (fun placed file => placed ∈ placedFiles files ∧
    placed.source = RomSource.ofPath file.1 file.2) ((walked files).flatMap (filesIn files)) (order files) := by
  have sources : ((walked files).flatMap (filesIn files)).map PlacedFile.source =
      (order files).map fun file => RomSource.ofPath file.1 file.2 := by
    rw [order, List.map_flatMap, List.map_flatMap]
    exact List.flatMap_congr fun path member => map_filesIn (mem_of_mem_walked member)
  refine (List.forall₂_and_left _ _).mpr ⟨fun placed found => ?_, ?_⟩
  · obtain ⟨path, -, found⟩ := List.mem_flatMap.mp found
    exact List.mem_of_mem_filter found
  · rw [← List.forall₂_eq_eq_eq, List.forall₂_map_left_iff, List.forall₂_map_right_iff] at sources
    exact sources

end

/-! ## Directories -/

theorem slashFree_directories (member : path ∈ directoryPaths files) : SlashFree path := by
  obtain rfl | ⟨file, -, leads⟩ := mem_directoryPaths.mp member
  · exact fun name none => absurd none List.not_mem_nil
  · exact fun name found => RomSource.slashFree_directory file.1 file.2 name (leads.subset found)

theorem nodup_listedDirectories : ((walked files).tail.map joined).Nodup := by
  have below : (walked files).tail.Nodup := nodup_walked.sublist (List.tail_sublist _)
  refine below.map_on fun first firstMember second secondMember => ?_
  have clean : ∀ path ∈ (walked files).tail, SlashFree path :=
    fun path member => slashFree_directories (mem_of_mem_walked (List.mem_of_mem_tail member))
  exact joined_injective (clean first firstMember) (clean second secondMember)

theorem mem_listedDirectories (shallow : ∀ path ∈ directoryPaths files, path.length ≤ maxDepth) {directory : String} :
    directory ∈ (walked files).tail.map joined ↔
      directory ≠ "" ∧ ∃ file ∈ files, ∃ rest, RomSource.listedPath file.1 = directory ++ "/" ++ rest := by
  have member : ∀ {path}, path ∈ (walked files).tail ↔ path ≠ [] ∧ ∃ file ∈ files, path <+: directoryOf file := by
    intro path
    obtain ⟨rest, split⟩ : ∃ rest, walked files = [] :: rest := exists_walked
    have distinct : (walked files).Nodup := nodup_walked
    have found : path ∈ walked files ↔ _ := (mem_walked shallow).trans mem_directoryPaths
    rw [split, List.nodup_cons] at distinct
    rw [split, List.mem_cons] at found
    rw [split, List.tail_cons]
    by_cases root : path = []
    · subst root
      exact iff_of_false distinct.1 fun present => present.1 rfl
    · simpa [root] using found
  rw [List.mem_map]
  constructor
  · rintro ⟨path, found, rfl⟩
    obtain ⟨below, file, given, leads⟩ := member.mp found
    obtain ⟨present, rest, split⟩ := RomSource.exists_prefix_iff.mp ⟨path, below, leads, rfl⟩
    exact ⟨present, file, given, rest, split⟩
  · rintro ⟨present, file, given, above⟩
    obtain ⟨path, below, leads, rfl⟩ : ∃ path ≠ [], path <+: directoryOf file ∧ directory = joined path :=
      RomSource.exists_prefix_iff.mpr ⟨present, above⟩
    exact ⟨path, member.mpr ⟨below, file, given, leads⟩, rfl⟩

/-! ## Reading -/

variable (files) in
/-- What a written image lists. -/
def writtenListing : RomListing :=
  ⟨(walked files).tail.map joined, ((walked files).flatMap (filesIn files)).map listed⟩

theorem walk_tables (short : Short files) (fits : (dataBytes files).length < 256 ^ 8)
    (shallow : ∀ path ∈ directoryPaths files, path.length ≤ maxDepth) :
    (tables files).walk = .ok (writtenListing files) := by
  refine RomTables.walk_eq_ok_iff.mpr (.inr ⟨_, tour short shallow, ?_⟩)
  rw [listing_visitsBelow short fits, writtenListing, List.map_flatMap]

/-- An image is read from any node that holds its bytes. -/
theorem ofStorage_answers {nodes : List Storage} (graph : Coherent nodes) {content : Storage}
    (member : content ∈ nodes) (holds : content.Holds (image files)) (short : Short files)
    (shallow : ∀ path ∈ directoryPaths files, path.length ≤ maxDepth) : ∃ header,
      header.dataOffset = dataStart files ∧ Answers (Remembers nodes) (ofStorage content)
        (.ok ⟨content, header, writtenListing files⟩) := by
  have sized : (image files).length < 256 ^ 8 := by
    rw [← holds.size]
    exact graph.size_lt content member
  obtain ⟨stated, header⟩ := header_image sized
  have whole : (image files).length = dataStart files + (dataBytes files).length := length_image
  obtain ⟨gap, -, start⟩ := image_split files
  have read : Answers (Remembers nodes) (RomHeader.read.run' ⟨content, 0⟩) (.ok (.ofBytes (image files))) :=
    RomHeader.read_answers graph member holds (by omega) stated
  rw [header] at read
  have directories := holds.answers graph member
    (show RomHeader.size + (directoryTable files).length ≤ (image files).length by omega)
  rw [window_directoryTable] at directories
  have regular := holds.answers graph member
    (show RomHeader.size + (directoryTable files).length + (fileTable files).length ≤ (image files).length by omega)
  rw [window_fileTable] at regular
  have walk : RomTables.walk ⟨directoryTable files, fileTable files⟩ = .ok (writtenListing files) :=
    walk_tables short (by omega) shallow
  refine ⟨⟨⟨RomHeader.size, 0⟩, ⟨RomHeader.size, (directoryTable files).length⟩,
    ⟨RomHeader.size + (directoryTable files).length, 0⟩,
    ⟨RomHeader.size + (directoryTable files).length, (fileTable files).length⟩, dataStart files⟩, rfl, ?_⟩
  refine read.step (directories.step (regular.step ?_))
  rw [walk]
  exact .pure _

/-- A file of the image is listed under its path and opens to its contents, whatever is done from a workspace on. -/
def Recovers (w : Workspace) (image : RomImage) (listed : RomPath) (file : String × Bytes) : Prop :=
  listed.path = RomSource.listedPath file.1 ∧ listed.size = file.2.length ∧
    ∀ later, Steps w later → (do (← image.openFile listed).readAll : SessionM Bytes).result later.session = .ok file.2

theorem recovers {w : Workspace} (sound : w.Sound) {rom : RomImage} (member : rom.storage ∈ w.nodes)
    (holds : rom.storage.Holds (image files)) (start : rom.header.dataOffset = dataStart files) {placed : PlacedFile}
    {file : String × Bytes} (there : placed ∈ placedFiles files)
    (source : placed.source = RomSource.ofPath file.1 file.2) : Recovers w rom (listed placed) file := by
  have contents : placed.source.contents = file.2 := by rw [source]; rfl
  obtain ⟨inside, stands⟩ := stands_data there
  rw [contents] at inside stands
  have whole : (image files).length = dataStart files + (dataBytes files).length := length_image
  have data : (image files).window (dataStart files + placed.data) file.2.length = file.2 := by
    rw [← Bytes.window_window inside, window_dataBytes, stands]
  refine ⟨by rw [listed, source, RomSource.joined_ofPath], congrArg List.length contents, fun later steps => ?_⟩
  have read := holds.readAll_window sound member
    (show dataStart files + placed.data + file.2.length ≤ (image files).length by omega) steps
  rw [data] at read
  have short := sound.graph.size_lt _ member
  rw [holds.size] at short
  have exact : dataStart files + placed.data < UInt64.size := by omega
  rwa [openFile, start, listed, contents, windowBehind_eq exact]

/-- An image that was written is read back from any storage that gives its bytes. Its files are the given ones,
    each listed once under its path and opened to its contents, with those of one directory in the order they
    were given in, and its directories are those above the files. -/
theorem ofStorage_image {w : Workspace} (reached : Steps {} w) {content : Storage} (member : content ∈ w.nodes)
    (reads : content.readAll.result w.session = .ok (image files))
    (shallow : ∀ file ∈ files, (RomSource.stripped file.1).count '/' ≤ maxDepth) (short : Short files) :
    ∃ rom, (ofStorage content).result w.session = .ok rom ∧
      (∃ listedFiles, listedFiles.Perm files ∧
        (∀ folder, listedFiles.filter (RomSource.folder ·.1 == folder) = files.filter (RomSource.folder ·.1 == folder)) ∧
        List.Forall₂ (Recovers (w.left (ofStorage content)) rom) rom.listing.files listedFiles) ∧
      rom.listing.directories.Nodup ∧
      ∀ directory, directory ∈ rom.listing.directories ↔
        directory ≠ "" ∧ ∃ file ∈ files, ∃ rest, RomSource.listedPath file.1 = directory ++ "/" ++ rest := by
  have sound := Workspace.sound_of_steps reached
  have holds := Storage.Holds.of_readAll reached member reads
  have depth : ∀ path ∈ directoryPaths files, path.length ≤ maxDepth := fun path => length_le_of_mem shallow
  obtain ⟨header, start, answers⟩ := ofStorage_answers sound.graph member holds short depth
  obtain ⟨gives, remembers⟩ := answers _ sound.remembers
  have after : (w.left (ofStorage content)).Sound := ⟨sound.graph, remembers⟩
  refine ⟨_, gives, ⟨order files, order_perm depth, filter_order depth, ?_⟩, nodup_listedDirectories,
    fun directory => mem_listedDirectories depth⟩
  refine List.forall₂_map_left_iff.mpr (placed_order.imp fun placed file found => ?_)
  exact recovers after member holds start found.1 found.2

/-- Two files, one of which is in a directory. -/
def sampleFiles : List (String × Bytes) := [("icon/a", [1, 2]), ("b", [3])]

theorem ofStorage_image_sample :
    let content := Storage.ofBytes (image sampleFiles)
    let w := Workspace.add {} content
    Steps {} w ∧ content ∈ w.nodes ∧ content.readAll.result w.session = .ok (image sampleFiles) ∧
    (∀ file ∈ sampleFiles, (RomSource.stripped file.1).count '/' ≤ maxDepth) ∧ Short sampleFiles ∧
    ∃ rom, (ofStorage content).result w.session = .ok rom ∧ rom.listing.files.length = 2 ∧
      "/icon" ∈ rom.listing.directories := by
  intro content w
  have checked : ((directoryTable sampleFiles).length ≤ 2 ^ 32 ∧ (fileTable sampleFiles).length ≤ 2 ^ 32) ∧
      (image sampleFiles).length < UInt64.size ∧
      (∀ file ∈ sampleFiles, (RomSource.stripped file.1).count '/' ≤ maxDepth) ∧
      RomSource.listedPath "icon/a" = "/icon" ++ "/" ++ "a" := by decide +kernel
  obtain ⟨⟨directoriesShort, filesShort⟩, small, shallow, path⟩ := checked
  have reached : Steps {} w := .step .refl (.memory (by rwa [List.size_toArray]))
  have member : content ∈ w.nodes := .head _
  have reads : content.readAll.result w.session = .ok (image sampleFiles) := readAll_ofBytes _ _
  have short : Short sampleFiles := ⟨directoriesShort, filesShort⟩
  refine ⟨reached, member, reads, shallow, short, ?_⟩
  obtain ⟨rom, read, ⟨listedFiles, same, -, each⟩, -, directories⟩ :=
    ofStorage_image reached member reads shallow short
  refine ⟨rom, read, each.length_eq.trans same.length_eq, (directories "/icon").mpr ⟨by decide, ?_⟩⟩
  exact ⟨("icon/a", [1, 2]), .head _, "a", path⟩

end RomImage

end SealedContent
