import SealedContent.Proofs.RomImage.Layout
import SealedContent.Proofs.RomImage.Paths

/-! # The tour of a written image

The lists of a written image lead through the directories and files of one directory in their order
(`inList_children`, `inList_files`). So the tables have a tour, which enters the directories depth first
(`tour`), and the walk lists the files that were written.
-/

namespace SealedContent

namespace RomImage

open RomTables (InList ListVisits Visits joined linksBelow maxDepth)

variable {files : List (String × Bytes)} {path : List String} {place : Nat} {link : RomLink}

/-! ## Lists -/

variable (files) in
/-- The files of a directory. -/
def filesIn (path : List String) : List PlacedFile := (placedFiles files).filter (·.source.directory == path)

/-- The files of a directory stand together. -/
theorem exists_block (member : path ∈ directoryPaths files) : ∃ before after,
    placedFiles files = before ++ filesIn files path ++ after ∧
      (∀ file ∈ before, file.source.directory ≠ path) ∧ ∀ file ∈ after, file.source.directory ≠ path := by
  obtain ⟨earlier, later, -, absent, gone, split⟩ := flatMap_split
    (fun path => (sources files).filter (·.directory == path)) member (nodup_sourceDirectories _)
  have other : ∀ {paths : List (List String)}, path ∉ paths →
      ∀ source ∈ paths.flatMap fun path => (sources files).filter (·.directory == path), source.directory ≠ path := by
    rintro paths absent source found rfl
    obtain ⟨path, member, found⟩ := List.mem_flatMap.mp found
    obtain ⟨-, same⟩ := List.mem_filter.mp found
    exact absent (beq_iff_eq.mp same ▸ member)
  have whole : (placedFiles files).map PlacedFile.source = _ := map_placedFiles.trans split
  obtain ⟨front, after, together, first, third⟩ := List.map_eq_append_iff.mp whole
  obtain ⟨before, block, rfl, first, second⟩ := List.map_eq_append_iff.mp first
  have outside : ∀ {part : List PlacedFile} {sources : List RomSource}, part.map PlacedFile.source = sources →
      (∀ source ∈ sources, source.directory ≠ path) → ∀ file ∈ part, file.source.directory ≠ path := by
    rintro part _ rfl others file member
    exact others _ (List.mem_map_of_mem member)
  have none : ∀ {part : List PlacedFile}, (∀ file ∈ part, file.source.directory ≠ path) →
      part.filter (·.source.directory == path) = [] := by
    intro part others
    exact List.filter_eq_nil_iff.mpr fun file member => by simpa using others file member
  have inside : ∀ file ∈ block, (file.source.directory == path) = true := by
    intro file member
    have found := second ▸ List.mem_map_of_mem (f := PlacedFile.source) member
    exact (List.mem_filter.mp found).2
  have front := outside first (other absent)
  have behind := outside third (other gone)
  refine ⟨before, after, ?_, front, behind⟩
  rw [filesIn, together, List.filter_append, List.filter_append, none front, none behind,
    List.filter_eq_self.mpr inside, List.nil_append, List.append_nil]

theorem inList_files (short : Short files) {before first rest after : List PlacedFile}
    (split : placedFiles files = before ++ (first ++ rest) ++ after)
    (block : ∀ file ∈ rest, file.source.directory = path) (outside : ∀ file ∈ after, file.source.directory ≠ path)
    (leads : (tables files).target? link = (rest.head?.map (·.entry)).map .file) :
    (tables files).InList link ((rest.map PlacedFile.entry).map .file) := by
  induction rest generalizing first link with
  | nil => exact .done leads
  | cons file rest inductionHypothesis =>
    obtain ⟨here, others⟩ := List.forall_mem_cons.mp block
    have behind : placedFiles files = (before ++ first) ++ file :: (rest ++ after) := by simpa using split
    have again : placedFiles files = before ++ ((first ++ [file]) ++ rest) ++ after := by simpa using split
    obtain ⟨holds, -, next, -⟩ := file_links short behind
    refine .entry leads holds (inductionHypothesis again others (next.trans ?_))
    -- the next file of the table is in the same directory, unless this is the last one there
    have same : (rest ++ after).head?.filter (·.source.directory == file.source.directory) = rest.head? := by
      rw [here]
      cases rest with
      | cons sibling rest => simp [others sibling (.head _)]
      | nil =>
        cases after with
        | nil => rfl
        | cons other after => simp [outside other (.head _)]
    rw [same]

/-- The directory behind a child is the next child. -/
theorem siblingOf?_child {child : PlacedDirectory} {first rest : List PlacedDirectory}
    (split : childrenOf (directories files) path = first ++ child :: rest) :
    siblingOf? (directories files) child.1 = rest.head?.map (·.2) := by
  have member : child ∈ childrenOf (directories files) path := split ▸ List.mem_append_right _ (.head _)
  obtain ⟨-, here⟩ := List.mem_filter.mp member
  obtain ⟨-, rfl⟩ : child.1 ≠ [] ∧ child.1.dropLast = path := by simpa using here
  have distinct : ((childrenOf (directories files) child.1.dropLast).map Prod.fst).Nodup :=
    nodup_directories.sublist (List.filter_sublist.map _)
  rw [split, List.map_append, List.nodup_append] at distinct
  have others : ∀ other ∈ first, (other.1 != child.1) = true := by
    intro other earlier
    simpa using distinct.2.2 _ (List.mem_map_of_mem earlier) child.1 (by simp)
  rw [siblingOf?, split, List.dropWhile_append_of_pos others, List.dropWhile_cons_of_neg (by simp), List.tail_cons]

theorem inList_children (short : Short files) {first rest : List PlacedDirectory}
    (split : childrenOf (directories files) path = first ++ rest)
    (leads : (tables files).target? link = (rest.head?.map (·.2)).map .directory) :
    (tables files).InList link (rest.map fun child => .directory child.2) := by
  induction rest generalizing first link with
  | nil => exact .done leads
  | cons child rest inductionHypothesis =>
    have member : child ∈ childrenOf (directories files) path := split ▸ List.mem_append_right _ (.head _)
    obtain ⟨holds, -, next, -⟩ := directory_links short (List.mem_of_mem_filter member)
    rw [siblingOf?_child split] at next
    have again : childrenOf (directories files) path = (first ++ [child]) ++ rest := by simpa using split
    exact .entry leads holds (inductionHypothesis again next)

/-! ## Visits -/

variable (files) in
/-- Where the entry of a directory stands. -/
def placeOf (path : List String) : Nat := (offsetOf? (directories files) path).getD 0

variable (files) in
def fileVisits (path : List String) : List RomVisit :=
  (filesIn files path).map fun file => (.file file.entry, path ++ [file.source.name])

variable (files) in
/-- What a directory holds, through a number of levels. -/
def visitsBelow : (levels : Nat) → (path : List String) → List RomVisit
  | 0, path => fileVisits files path
  | levels + 1, path => fileVisits files path ++ (childPaths (directoryPaths files) path).flatMap fun child =>
      (.directory (placeOf files child), child) :: visitsBelow levels child

theorem placeOf_eq (member : (path, place) ∈ directories files) : placeOf files path = place := by
  have present : ((directories files).find? (·.1 == path)).isSome := List.find?_isSome.mpr ⟨_, member, by simp⟩
  obtain ⟨found, first⟩ := Option.isSome_iff_exists.mp present
  have key : found.1 = path := by simpa using List.find?_some first
  have same : found = (path, place) :=
    List.inj_on_of_nodup_map nodup_directories (List.mem_of_find?_eq_some first) member key
  rw [placeOf, offsetOf?, first, same]
  rfl

theorem placed_of_mem (member : path ∈ directoryPaths files) : (path, placeOf files path) ∈ directories files := by
  obtain ⟨place, placed⟩ := exists_place member
  rwa [placeOf_eq placed]

theorem directory_of_mem_filesIn {file : PlacedFile} (member : file ∈ filesIn files path) :
    file.source.directory = path := by
  obtain ⟨-, here⟩ := List.mem_filter.mp member
  exact beq_iff_eq.mp here

theorem directories_eq : directories files = (directoryPaths files).map fun path => (path, placeOf files path) := by
  rw [← map_directories, List.map_map]
  conv_lhs => rw [← List.map_id (directories files)]
  refine List.map_congr_left fun directory member => ?_
  obtain ⟨path, place⟩ := directory
  exact Prod.ext rfl (placeOf_eq member).symm

theorem childrenOf_eq (path : List String) : childrenOf (directories files) path =
    (childPaths (directoryPaths files) path).map fun child => (child, placeOf files child) := by
  rw [childrenOf, directories_eq, List.filter_map]
  rfl

/-- The files of a directory in order. -/
theorem fileVisits_order (short : Short files) (member : path ∈ directoryPaths files) :
    (tables files).Visits [⟨.firstFile (placeOf files path), path⟩] (fileVisits files path) := by
  obtain ⟨before, after, split, -, outside⟩ := exists_block member
  obtain ⟨-, -, -, -, first⟩ := directory_links short (placed_of_mem member)
  rw [← List.head?_filter] at first
  have whole : placedFiles files = before ++ ([] ++ filesIn files path) ++ after := split
  have list := inList_files short whole (fun file => directory_of_mem_filesIn) outside first
  refine RomTables.visits_iff.mpr ⟨_, list, RomTables.listVisits_files.mpr ?_⟩
  rw [fileVisits, List.map_map]
  refine List.map_congr_left fun file found => ?_
  obtain ⟨_, _, behind⟩ := List.append_of_mem (List.mem_of_mem_filter found)
  obtain ⟨-, name, -⟩ := file_links short behind
  rw [Function.comp, name]

theorem directoryName_append (path : List String) (name : String) : directoryName (path ++ [name]) = name := by
  simp [directoryName]

theorem inList_childPaths (short : Short files) (member : path ∈ directoryPaths files) :
    (tables files).InList (.firstDirectory (placeOf files path))
      ((childPaths (directoryPaths files) path).map fun child => .directory (placeOf files child)) := by
  obtain ⟨-, -, -, first, -⟩ := directory_links short (placed_of_mem member)
  have whole : childrenOf (directories files) path = [] ++ childrenOf (directories files) path := rfl
  have list := inList_children short whole first
  rwa [childrenOf_eq, List.map_map] at list

/-- What a directory holds has this order, if no directory is too deep for the levels. -/
theorem visitsBelow_order (short : Short files) {levels : Nat} (member : path ∈ directoryPaths files)
    (deep : ∀ below ∈ directoryPaths files, path <+: below → below.length ≤ path.length + levels) :
    (tables files).Visits (linksBelow (placeOf files path) path) (visitsBelow files levels path) := by
  induction levels generalizing path with
  | zero =>
    have own := fileVisits_order short member
    have list := inList_childPaths short member
    have none : childPaths (directoryPaths files) path = [] := by
      rw [List.eq_nil_iff_forall_not_mem]
      intro child below
      obtain ⟨there, name, rfl⟩ := mem_childPaths.mp below
      have tooDeep := deep _ there (List.prefix_append _ _)
      rw [List.length_append, List.length_singleton] at tooDeep
      omega
    rw [none] at list
    have nothing : (tables files).Visits [⟨.firstDirectory (placeOf files path), path⟩] [] :=
      RomTables.visits_iff.mpr ⟨_, list, .nil⟩
    have whole := own.append nothing
    rwa [List.append_nil] at whole
  | succ levels inductionHypothesis =>
    have each : ∀ children ⊆ childPaths (directoryPaths files) path, (tables files).ListVisits path
        (children.map fun child => .directory (placeOf files child))
        (children.flatMap fun child => (.directory (placeOf files child), child) :: visitsBelow files levels child) := by
      intro children among
      induction children with
      | nil => exact .nil
      | cons child children restHypothesis =>
        obtain ⟨first, rest⟩ := List.cons_subset.mp among
        obtain ⟨there, name, rfl⟩ := mem_childPaths.mp first
        have below := inductionHypothesis there fun below found leads => by
          have short := deep below found ((List.prefix_append _ _).trans leads)
          rw [List.length_append, List.length_singleton]
          omega
        obtain ⟨-, same, -⟩ := directory_links short (placed_of_mem there)
        rw [directoryName_append] at same
        rw [List.map_cons, List.flatMap_cons, List.cons_append]
        have held : (tables files).Visits ((tables files).heldBy (.directory (placeOf files (path ++ [name]))) path)
            (visitsBelow files levels (path ++ [name])) := by
          rw [RomTables.heldBy, same]
          exact below
        have visit := RomTables.ListVisits.cons held (restHypothesis rest)
        rwa [same] at visit
    exact (fileVisits_order short member).append
      (RomTables.visits_iff.mpr ⟨_, inList_childPaths short member, each _ (List.Subset.refl _)⟩)

/-- A directory and what it holds, each directory with its files. -/
theorem visitsBelow_eq (levels : Nat) (path : List String) :
    (.directory (placeOf files path), path) :: visitsBelow files levels path =
      (preorder (directoryPaths files) levels path).flatMap fun path =>
        (.directory (placeOf files path), path) :: fileVisits files path := by
  induction levels generalizing path with
  | zero => simp [visitsBelow, preorder]
  | succ levels inductionHypothesis =>
    rw [visitsBelow, preorder, List.flatMap_cons, List.flatMap_assoc, List.cons_append]
    congr 2
    exact List.flatMap_congr fun child _ => inductionHypothesis child

/-! ## The tour -/

theorem placeOf_inj {other : List String} (member : path ∈ directoryPaths files)
    (otherMember : other ∈ directoryPaths files) (same : placeOf files path = placeOf files other) : path = other := by
  have places : ((directories files).map Prod.snd).Nodup :=
    stacked_directories.nodup fun _ => Nat.add_pos_left (by decide) _
  have pairs := List.inj_on_of_nodup_map places (placed_of_mem member) (placed_of_mem otherMember) same
  exact congrArg Prod.fst pairs

variable (files) in
/-- All directories, depth first. -/
def walked : List (List String) := preorder (directoryPaths files) maxDepth []

theorem rooted_directoryPaths : Rooted (directoryPaths files) := rooted_sourceDirectories _

theorem mem_of_mem_walked (member : path ∈ walked files) : path ∈ directoryPaths files :=
  ((mem_preorder rooted_directoryPaths rooted_directoryPaths.root).mp member).1

theorem nodup_walked : (walked files).Nodup := nodup_preorder rooted_directoryPaths rooted_directoryPaths.root

theorem exists_walked : ∃ rest, walked files = [] :: rest := ⟨_, rfl⟩

/-- The root and what it holds. -/
theorem root_visitsBelow : (.directory 0, []) :: visitsBelow files maxDepth [] =
    (walked files).flatMap fun path => (.directory (placeOf files path), path) :: fileVisits files path := by
  rw [walked, ← visitsBelow_eq, placeOf_eq root_placed]

/-- Nothing is visited twice. -/
theorem nodup_visited : (((.directory 0, []) :: visitsBelow files maxDepth []).map Prod.fst).Nodup := by
  have entries : ∀ path, ((.directory (placeOf files path), path) :: fileVisits files path).map Prod.fst =
      .directory (placeOf files path) :: ((filesIn files path).map PlacedFile.entry).map .file := by
    intro path
    rw [List.map_cons, fileVisits, List.map_map, List.map_map]
    rfl
  rw [root_visitsBelow, List.map_flatMap, List.nodup_flatMap]
  simp only [entries]
  constructor
  · intro path _
    have distinct : ((filesIn files path).map PlacedFile.entry).Nodup :=
      nodup_entries.sublist (List.filter_sublist.map _)
    rw [List.nodup_cons]
    exact ⟨by simp, distinct.map fun _ _ => RomEntry.file.inj⟩
  · refine nodup_walked.imp_of_mem ?_
    intro first second firstMember secondMember different entry here there
    cases entry with
    | directory place =>
      obtain rfl : place = placeOf files first := by simpa using here
      obtain same : placeOf files first = placeOf files second := by simpa using there
      exact different (placeOf_inj (mem_of_mem_walked firstMember) (mem_of_mem_walked secondMember) same)
    | file entry =>
      obtain ⟨file, member, rfl⟩ : ∃ file ∈ filesIn files first, file.entry = entry := by simpa using here
      obtain ⟨other, otherMember, same⟩ : ∃ other ∈ filesIn files second, other.entry = file.entry := by
        simpa using there
      obtain rfl := List.inj_on_of_nodup_map nodup_entries (List.mem_of_mem_filter otherMember)
        (List.mem_of_mem_filter member) same
      exact different ((directory_of_mem_filesIn member).symm.trans (directory_of_mem_filesIn otherMember))

/-- The tables have a tour if no directory is too deep. -/
theorem tour (short : Short files) (shallow : ∀ path ∈ directoryPaths files, path.length ≤ maxDepth) :
    (tables files).Tour (visitsBelow files maxDepth []) := by
  have order : (tables files).Visits (linksBelow (placeOf files []) []) (visitsBelow files maxDepth []) :=
    visitsBelow_order short rooted_directoryPaths.root fun below member _ => by simpa using shallow below member
  have once : (((.directory 0, []) :: visitsBelow files maxDepth []).map Prod.fst).Nodup := nodup_visited
  rw [placeOf_eq root_placed] at order
  rw [List.map_cons, List.nodup_cons] at once
  refine ⟨?_, order, once.2, once.1, ?_⟩
  · obtain ⟨inside, -⟩ := stands_directory (show ([], 0) ∈ directories files from root_placed)
    simp only [RomTables.directoryEntrySize] at inside
    simp only [tables]
    omega
  · intro place names visited
    have among : (.directory place, names) ∈ (.directory 0, []) :: visitsBelow files maxDepth [] := .tail _ visited
    rw [root_visitsBelow] at among
    obtain ⟨path, member, found⟩ := List.mem_flatMap.mp among
    obtain ⟨rfl, rfl⟩ : place = placeOf files path ∧ names = path := by simpa [fileVisits] using found
    exact shallow names (mem_of_mem_walked member)

/-! ## The listing -/

/-- A file as the walk lists it. -/
def listed (file : PlacedFile) : RomPath :=
  ⟨joined (file.source.directory ++ [file.source.name]), file.data, file.source.contents.length⟩

theorem filePath?_file (short : Short files) (fits : (dataBytes files).length < 256 ^ 8) {file : PlacedFile}
    (member : file ∈ filesIn files path) :
    (tables files).filePath? (.file file.entry, path ++ [file.source.name]) = some (listed file) := by
  obtain ⟨inTable, here⟩ := List.mem_filter.mp member
  obtain rfl := beq_iff_eq.mp here
  obtain ⟨_, _, split⟩ := List.append_of_mem inTable
  obtain ⟨-, -, -, data, size⟩ := file_links short split
  have inside := (stands_data inTable).1
  simp only [RomTables.filePath?, tables, data, size, listed]
  rw [Nat.mod_eq_of_lt (by omega), Nat.mod_eq_of_lt (by omega)]

theorem listing_visitsBelow (short : Short files) (fits : (dataBytes files).length < 256 ^ 8) :
    (tables files).listing (visitsBelow files maxDepth []) = ⟨(walked files).tail.map joined,
      (walked files).flatMap fun path => (filesIn files path).map listed⟩ := by
  have visits : ∀ path, (fileVisits files path).filterMap RomTables.directoryPath? = [] := by
    intro path
    rw [fileVisits, List.filterMap_map]
    exact List.filterMap_eq_nil_iff.mpr fun _ _ => rfl
  have directories : ((.directory 0, []) :: visitsBelow files maxDepth []).filterMap RomTables.directoryPath? =
      (walked files).map joined := by
    rw [root_visitsBelow, List.filterMap_flatMap, List.map_eq_flatMap]
    refine List.flatMap_congr fun path _ => ?_
    have first : RomTables.directoryPath? (.directory (placeOf files path), path) = some (joined path) := rfl
    rw [List.filterMap_cons_some first, visits]
  have regular : ((.directory 0, []) :: visitsBelow files maxDepth []).filterMap (tables files).filePath? =
      (walked files).flatMap fun path => (filesIn files path).map listed := by
    rw [root_visitsBelow, List.filterMap_flatMap]
    refine List.flatMap_congr fun path _ => ?_
    rw [List.filterMap_cons_none rfl, fileVisits, List.filterMap_map, ← List.filterMap_eq_map]
    exact List.filterMap_congr fun file member => filePath?_file short fits member
  obtain ⟨rest, first⟩ : ∃ rest, walked files = [] :: rest := exists_walked
  have root : RomTables.directoryPath? (.directory 0, []) = some (joined []) := rfl
  rw [List.filterMap_cons_some root, first] at directories
  rw [List.filterMap_cons_none rfl] at regular
  rw [RomTables.listing, regular, first, List.tail_cons, (List.cons.inj directories).2]

end RomImage

end SealedContent
