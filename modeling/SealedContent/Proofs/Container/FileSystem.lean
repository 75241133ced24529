import SealedContent.Container.Contents
import SealedContent.Proofs.Archive.Partition

/-! # Listed paths are opened

A file system opens the first file that it lists under a path (`FileSystem.openFile_listed`). The exception are
paths of a partition that begin with two slashes, which list names that begin with a slash themselves: all
slashes are taken off such a path, so it opens a file of another path, or none.
-/

namespace SealedContent

open Workspace (Steps)

theorem Storage.window_error {parent : Storage} {offset length : Nat} {error : Error}
    (failed : parent.window offset length = .error error) : error = .outOfRange offset length parent.size := by
  unfold window at failed
  split at failed
  · cases failed
    rfl
  · split at failed <;> cases failed

theorem Storage.windowBehind_error {parent : Storage} {start offset length : Nat} {error : Error}
    (failed : parent.windowBehind start offset length = .error error) :
    error = .overflow ∨ error = .outOfRange (start + offset) length parent.size := by
  by_cases small : start + offset < UInt64.size
  · rw [windowBehind_eq small] at failed
    exact .inr (window_error failed)
  · rw [windowBehind_overflow (Nat.le_of_not_lt small)] at failed
    cases failed
    exact .inl rfl

namespace FileSystem

variable {fileSystem : FileSystem} {path : String}

/-! ## Files by their paths -/

/-- The files in the order of their listing: the path of each and what opening it gives. -/
def listing : FileSystem → List (String × Except Error Storage)
  | partition p => p.table.files.map fun file => ("/" ++ file.name, p.openFile file)
  | image i => i.listing.files.map fun file => (file.path, i.openFile file)

theorem paths_eq (fileSystem : FileSystem) : fileSystem.paths = fileSystem.listing.map (·.1) := by
  cases fileSystem <;> simp [paths, listing]

/-- What the first file listed under a path opens to. -/
def firstOf? (fileSystem : FileSystem) (path : String) : Option (Except Error Storage) :=
  (fileSystem.listing.find? (·.1 == path)).map (·.2)

theorem firstOf?_isSome (listed : path ∈ fileSystem.paths) : (fileSystem.firstOf? path).isSome := by
  rw [paths_eq] at listed
  simpa only [firstOf?, Option.isSome_map, List.find?_isSome, beq_iff_eq, List.mem_map] using listed

/-- A listed file fails to open only where its data lie outside of the storage. -/
theorem outside_of_listing {error : Error} (among : (path, .error error) ∈ fileSystem.listing) :
    error = .overflow ∨ ∃ offset length size, error = .outOfRange offset length size := by
  have outside : ∀ {parent : Storage} {start offset length}, parent.windowBehind start offset length = .error error →
      error = .overflow ∨ ∃ offset length size, error = .outOfRange offset length size := fun failed =>
    (Storage.windowBehind_error failed).imp_right fun same => ⟨_, _, _, same⟩
  cases fileSystem with
  | partition p =>
    obtain ⟨file, -, opened⟩ := List.mem_map.mp among
    exact outside (Prod.ext_iff.mp opened).2
  | image i =>
    obtain ⟨file, -, opened⟩ := List.mem_map.mp among
    exact outside (Prod.ext_iff.mp opened).2

theorem firstOf?_ne_absent {opened : Except Error Storage} (first : fileSystem.firstOf? path = some opened)
    (other : String) : opened ≠ .error (.format (.fileAbsent other)) := by
  rintro rfl
  obtain ⟨⟨name, _⟩, found, rfl⟩ := Option.map_eq_some_iff.mp first
  obtain different | ⟨_, _, _, different⟩ := outside_of_listing (List.mem_of_find?_eq_some found)
  all_goals cases different

/-! ## Slashes in front of a path -/

/-- The path as it is looked up: with one slash in front of it in a partition. -/
def lookedUp : FileSystem → String → String
  | partition _, path => "/" ++ withoutSlashes path
  | image _, path => path

/-- The path of a partition begins with two slashes. -/
def Doubled : FileSystem → String → Prop
  | partition _, path => ['/', '/'] <+: path.toList
  | image _, _ => False

instance : Decidable (Doubled fileSystem path) :=
  match fileSystem with
  | partition _ => inferInstanceAs (Decidable (_ <+: _))
  | image _ => inferInstanceAs (Decidable False)

theorem slash_inj {first second : String} : ("/" ++ first == "/" ++ second) = (first == second) := by
  rw [Bool.eq_iff_iff, beq_iff_eq, beq_iff_eq, String.append_right_inj]

theorem openFile_eq (fileSystem : FileSystem) (path : String) :
    fileSystem.openFile path =
      (fileSystem.firstOf? (fileSystem.lookedUp path)).getD (.error (.format (.fileAbsent path))) := by
  cases fileSystem with
  | partition p =>
    simp only [openFile, firstOf?, listing, lookedUp, List.find?_map, Function.comp_def, slash_inj, Option.map_map]
    rw [Partition.file?]
    cases p.table.files.find? (·.name == withoutSlashes path) <;> rfl
  | image i =>
    simp only [openFile, firstOf?, listing, lookedUp, List.find?_map, Function.comp_def, Option.map_map]
    rw [RomImage.file?]
    cases i.listing.files.find? (·.path == path) <;> rfl

theorem withoutSlashes_eq_iff {name : String} : withoutSlashes name = name ↔ ¬['/'] <+: name.toList := by
  rw [withoutSlashes, ← String.toList_inj, String.toList_ofList, List.dropWhile_eq_self_iff]
  cases name.toList with
  | nil => simp
  | cons c rest => simpa using not_congr eq_comm

/-- A listed path is looked up as it is, unless it begins with two slashes. -/
theorem lookedUp_eq_iff (listed : path ∈ fileSystem.paths) :
    fileSystem.lookedUp path = path ↔ ¬fileSystem.Doubled path := by
  cases fileSystem with
  | partition p =>
    obtain ⟨file, -, rfl⟩ := List.mem_map.mp listed
    have taken : withoutSlashes ("/" ++ file.name) = withoutSlashes file.name := by
      simp [withoutSlashes]
    simp [lookedUp, Doubled, taken, withoutSlashes_eq_iff]
  | image i => simp [lookedUp, Doubled]

/-- A listed path opens the first file listed under it. Only where it begins with two slashes, which takes a
    partition with a name that begins with a slash, the file is looked up under another path and may be absent. -/
theorem openFile_listed (listed : path ∈ fileSystem.paths) :
    (¬fileSystem.Doubled path → ∃ opened, fileSystem.firstOf? path = some opened ∧
      fileSystem.openFile path = opened ∧ ∀ other, opened ≠ .error (.format (.fileAbsent other))) ∧
    (fileSystem.Doubled path → "/" ++ withoutSlashes path ≠ path ∧
      fileSystem.openFile path =
        (fileSystem.firstOf? ("/" ++ withoutSlashes path)).getD (.error (.format (.fileAbsent path)))) := by
  constructor
  · intro single
    obtain ⟨opened, first⟩ := Option.isSome_iff_exists.mp (firstOf?_isSome listed)
    refine ⟨opened, first, ?_, firstOf?_ne_absent first⟩
    rw [openFile_eq, (lookedUp_eq_iff listed).mpr single, first, Option.getD_some]
  · intro doubled
    have lost : fileSystem.lookedUp path ≠ path := mt (lookedUp_eq_iff listed).mp (not_not_intro doubled)
    cases fileSystem with
    | partition p => exact ⟨lost, openFile_eq _ _⟩
    | image i => cases doubled

/-! ## A partition with slashes in its names -/

/-- Two of the names begin with a slash, and one of these is another name behind it. -/
def slashedFiles : List (String × Bytes) := [("a", [1]), ("/a", [2]), ("/b", [3]), ("", [])]

theorem slashedFiles_read :
    let content := Storage.ofBytes (Partition.image slashedFiles)
    let w := Workspace.add {} content
    Steps {} w ∧ ∃ partition, (Partition.ofStorage content).result w.session = .ok partition ∧
      partition.table.files = [⟨"a", 0, 1⟩, ⟨"/a", 1, 1⟩, ⟨"/b", 2, 1⟩, ⟨"", 3, 0⟩] := by
  intro content w
  have checked : (Partition.image slashedFiles).length < UInt64.size ∧ slashedFiles.length < 2 ^ 32 ∧
      (Partition.strings slashedFiles).length < 2 ^ 32 ∧
      (∀ file ∈ slashedFiles, '\x00' ∉ file.1.toList) := by decide +kernel
  obtain ⟨small, count, names, clean⟩ := checked
  have reached : Steps {} w := .step .refl (.memory (lt_of_eq_of_lt List.size_toArray small))
  have sound := Workspace.sound_of_steps reached
  have member : content ∈ w.nodes := .head _
  have holds : content.Holds (Partition.image slashedFiles) := .ofBytes _
  obtain ⟨gives, -⟩ := Partition.ofStorage_answers sound.graph member holds clean ⟨count, names⟩ _ sound.remembers
  exact ⟨reached, _, gives, rfl⟩

theorem openFile_listed_slashed :
    let content := Storage.ofBytes (Partition.image slashedFiles)
    let w := Workspace.add {} content
    Steps {} w ∧ ∃ partition, (Partition.ofStorage content).result w.session = .ok partition ∧
      (FileSystem.partition partition).paths = ["/a", "//a", "//b", "/"] ∧
      (∃ file ∈ partition.table.files, (file.name, file.size) = ("a", 1) ∧
        (FileSystem.partition partition).openFile "/a" = partition.openFile file ∧
        (FileSystem.partition partition).openFile "//a" = partition.openFile file) ∧
      (FileSystem.partition partition).openFile "//b" = .error (.format (.fileAbsent "//b")) := by
  intro content w
  obtain ⟨reached, partition, gives, files⟩ := slashedFiles_read
  have paths : (FileSystem.partition partition).paths = ["/a", "//a", "//b", "/"] := by
    rw [FileSystem.paths, files]
    rfl
  have first : (FileSystem.partition partition).firstOf? "/a" = some (partition.openFile ⟨"a", 0, 1⟩) := by
    rw [firstOf?, listing, files]
    rfl
  have none : (FileSystem.partition partition).firstOf? "/b" = none := by
    rw [firstOf?, listing, files]
    rfl
  have listed path (named : path ∈ ["/a", "//a", "//b", "/"]) :
      path ∈ (FileSystem.partition partition).paths := by rwa [paths]
  obtain ⟨opened, found, single, -⟩ := (openFile_listed (listed "/a" (by simp))).1 (by simp [Doubled])
  obtain ⟨-, another⟩ := (openFile_listed (listed "//a" (by simp))).2 (by simp [Doubled])
  obtain ⟨-, absent⟩ := (openFile_listed (listed "//b" (by simp))).2 (by simp [Doubled])
  refine ⟨reached, partition, gives, paths, ⟨⟨"a", 0, 1⟩, by simp [files], rfl, ?_, ?_⟩, ?_⟩
  · rw [single]
    exact Option.some_inj.mp (found.symm.trans first)
  · rw [another]
    exact congrArg (Option.getD · _) first
  · rw [absent]
    exact congrArg (Option.getD · _) none

end FileSystem

end SealedContent
