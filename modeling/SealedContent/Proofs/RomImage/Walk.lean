import SealedContent.Proofs.RomImage.Links
import SealedContent.Proofs.Storage.Outcome

/-! # Walking a directory tree

`RomTables.walk` reaches the entries of a list before it enters the first of them, so an order of visits is taken
apart into lists: `visits_iff`. One level of the walk takes a list that nothing was reached of, and goes on with
what its directories hold; `walkFrom_sound` and `walkFrom_complete` follow it through the levels. The walk
succeeds exactly when there is a tour, and lists it: `walk_exact`.
-/

namespace SealedContent

namespace RomTables

variable (tables : RomTables)

/-! ## Lists -/

/-- The entries of the list that a link leads to. -/
inductive InList : RomLink → List RomEntry → Prop
  | done {link} : tables.target? link = none → InList link []
  | entry {link entry rest} : tables.target? link = some entry → tables.Holds entry → InList entry.next rest →
      InList link (entry :: rest)

/-- The order of visits of the entries of a list, with what each of them holds. -/
inductive ListVisits (names : List String) : List RomEntry → List RomVisit → Prop
  | nil : ListVisits names [] []
  | cons {entry rest held visits} : tables.Visits (tables.heldBy entry names) held → ListVisits names rest visits →
      ListVisits names (entry :: rest) ((entry, names ++ [tables.nameOf entry]) :: (held ++ visits))

variable {tables} {link : RomLink} {entry : RomEntry} {names : List String} {visits : List RomVisit}

theorem InList.order {entries : List RomEntry} (list : tables.InList link entries)
    (each : tables.ListVisits names entries visits) : tables.Visits [⟨link, names⟩] visits := by
  induction list generalizing visits with
  | done ends =>
    cases each
    exact .skip ends .done
  | entry found holds _ inductionHypothesis =>
    cases each with
    | cons held rest =>
      refine .visit found holds ?_
      rw [List.append_nil]
      exact held.append (inductionHypothesis rest)

/-- The order of visits of a link is that of the list it leads to. -/
theorem visits_iff : tables.Visits [⟨link, names⟩] visits ↔
    ∃ entries, tables.InList link entries ∧ tables.ListVisits names entries visits := by
  refine ⟨fun order => ?_, fun ⟨_, list, each⟩ => list.order each⟩
  -- what stands behind the first entry and what it holds is an order of fewer visits
  induction size : visits.length using Nat.strong_induction_on generalizing link visits with
  | _ count inductionHypothesis =>
  cases order with
  | skip ends order =>
    cases order
    exact ⟨[], .done ends, .nil⟩
  | @visit _ _ visits entry found holds order =>
    rw [List.append_nil] at order
    obtain ⟨held, behind, first, second, rfl⟩ := order.split
    obtain ⟨entries, list, each⟩ := inductionHypothesis behind.length (by
      simp only [List.length_cons, List.length_append] at size
      omega) second rfl
    exact ⟨entry :: entries, .entry found holds list, .cons first each⟩

theorem Visits.split_below {offset : Nat} (order : tables.Visits (linksBelow offset names) visits) :
    ∃ files below, tables.Visits [⟨.firstFile offset, names⟩] files ∧
      tables.Visits [⟨.firstDirectory offset, names⟩] below ∧ visits = files ++ below :=
  Visits.split (show tables.Visits ([_] ++ [_]) visits from order)

theorem ListVisits.sublist {entries : List RomEntry} (each : tables.ListVisits names entries visits) :
    entries.Sublist (visits.map Prod.fst) := by
  induction each with
  | nil => exact .slnil
  | cons _ _ inductionHypothesis =>
    rw [List.map_cons, List.map_append]
    exact (inductionHypothesis.trans (List.sublist_append_right _ _)).cons_cons _

/-! ## Reading entries -/

variable (tables) in
def linksAt (offset : Nat) : RomLinks :=
  ⟨tables.directories.fieldAt (offset + 0x8) 4, tables.directories.fieldAt (offset + 0xC) 4⟩

variable (tables) in
def directoryAt (offset : Nat) : RomDirectory :=
  ⟨tables.nameOf (.directory offset), tables.directories.fieldAt (offset + 0x4) 4, tables.linksAt offset⟩

variable (tables) in
def fileAt (offset : Nat) : RomFile :=
  ⟨tables.nameOf (.file offset), tables.files.fieldAt (offset + 0x4) 4, tables.files.fieldAt (offset + 0x8) 8,
    tables.files.fieldAt (offset + 0x10) 8⟩

theorem entryName_eq_ok_iff {table : Bytes} {lengthOffset nameOffset : Nat} {name : String}
    (behind : lengthOffset + 4 ≤ nameOffset) : entryName table lengthOffset nameOffset = .ok name ↔
      nameOffset + table.fieldAt lengthOffset 4 ≤ table.length ∧
        name = Utf8.decodeLossy (table.window nameOffset (table.fieldAt lengthOffset 4)) := by
  simp only [entryName]
  constructor
  · intro read
    obtain ⟨length, first, read⟩ := ok_of_bind read
    obtain ⟨-, rfl⟩ := Bytes.numberAt_eq_ok_iff.mp first
    obtain ⟨bytes, second, read⟩ := ok_of_bind read
    obtain ⟨inside, rfl⟩ := Bytes.bytesAt_eq_ok_iff.mp second
    cases read
    exact ⟨inside, rfl⟩
  · rintro ⟨inside, rfl⟩
    rw [Bytes.numberAt_eq (by omega), ok_bind, Bytes.bytesAt_eq inside]
    rfl

theorem readLinks_eq {offset : Nat} (inside : offset + 0x10 ≤ tables.directories.length) :
    RomLinks.read tables.directories offset = .ok (tables.linksAt offset) := by
  rw [RomLinks.read, Bytes.numberAt_eq (by omega), Bytes.numberAt_eq (by omega)]
  rfl

theorem inside_of_readLinks {offset : Nat} {links : RomLinks}
    (read : RomLinks.read tables.directories offset = .ok links) : offset + 0x10 ≤ tables.directories.length := by
  obtain ⟨_, -, read⟩ := ok_of_bind read
  obtain ⟨_, second, -⟩ := ok_of_bind read
  exact (Bytes.numberAt_eq_ok_iff.mp second).1

theorem readDirectory_eq_ok_iff {offset : Nat} {entry : RomDirectory} :
    RomDirectory.read tables.directories offset = .ok entry ↔
      tables.Holds (.directory offset) ∧ entry = tables.directoryAt offset := by
  have behind : offset + 0x14 + 4 ≤ offset + directoryEntrySize := by simp [directoryEntrySize]
  simp only [RomDirectory.read]
  constructor
  · intro read
    obtain ⟨text, named, read⟩ := ok_of_bind read
    obtain ⟨holds, rfl⟩ := (entryName_eq_ok_iff behind).mp named
    simp only [directoryEntrySize] at holds
    rw [Bytes.numberAt_eq (by omega), readLinks_eq (by omega)] at read
    cases read
    exact ⟨holds, rfl⟩
  · rintro ⟨holds, rfl⟩
    rw [(entryName_eq_ok_iff behind).mpr ⟨holds, rfl⟩]
    simp only [Holds, directoryEntrySize] at holds
    rw [ok_bind, Bytes.numberAt_eq (by omega), readLinks_eq (by omega)]
    rfl

theorem readFile_eq_ok_iff {offset : Nat} {entry : RomFile} :
    RomFile.read tables.files offset = .ok entry ↔ tables.Holds (.file offset) ∧ entry = tables.fileAt offset := by
  have behind : offset + 0x1C + 4 ≤ offset + fileEntrySize := by simp [fileEntrySize]
  simp only [RomFile.read]
  constructor
  · intro read
    obtain ⟨text, named, read⟩ := ok_of_bind read
    obtain ⟨holds, rfl⟩ := (entryName_eq_ok_iff behind).mp named
    simp only [fileEntrySize] at holds
    rw [Bytes.numberAt_eq (by omega), Bytes.numberAt_eq (by omega), Bytes.numberAt_eq (by omega)] at read
    cases read
    exact ⟨holds, rfl⟩
  · rintro ⟨holds, rfl⟩
    rw [(entryName_eq_ok_iff behind).mpr ⟨holds, rfl⟩]
    simp only [Holds, fileEntrySize] at holds
    rw [ok_bind, Bytes.numberAt_eq (by omega), Bytes.numberAt_eq (by omega), Bytes.numberAt_eq (by omega)]
    rfl

/-! ## Reading lists -/

section
variable {Entry : Type} {table : Bytes} {read : Bytes → Nat → Except Error Entry} {next : Entry → Nat}
  {kind : Nat → RomEntry} {value : Nat → Entry} {entries : List Entry} {offset : Nat} {reached after : List Nat}

/-- The entries of one kind stand in one table and hold a link to the next one. -/
structure Reads (tables : RomTables) (table : Bytes) (read : Bytes → Nat → Except Error Entry) (next : Entry → Nat)
    (kind : Nat → RomEntry) (value : Nat → Entry) : Prop where
  injective : kind.Injective
  reads : ∀ {offset entry}, read table offset = .ok entry ↔ tables.Holds (kind offset) ∧ entry = value offset
  below : ∀ {offset}, tables.Holds (kind offset) → offset < table.length
  behind : ∀ {offset}, tables.target? (kind offset).next = entryAt? kind (next (value offset))

theorem reads_directory : tables.Reads tables.directories RomDirectory.read RomDirectory.next .directory
    tables.directoryAt where
  injective _ _ same := RomEntry.directory.inj same
  reads := readDirectory_eq_ok_iff
  below holds := by
    simp only [Holds, directoryEntrySize] at holds
    omega
  behind := rfl

theorem reads_file : tables.Reads tables.files RomFile.read RomFile.next .file tables.fileAt where
  injective _ _ same := RomEntry.file.inj same
  reads := readFile_eq_ok_iff
  below holds := by
    simp only [Holds, fileEntrySize] at holds
    omega
  behind := rfl

theorem entryAt?_eq_none_iff : entryAt? kind offset = none ↔ offset = listEnd := by
  simp [entryAt?]

theorem entryAt?_eq_some_iff (injective : kind.Injective) {found : Nat} :
    entryAt? kind offset = some (kind found) ↔ offset ≠ listEnd ∧ found = offset := by
  rw [entryAt?]
  split <;> simp_all [injective.eq_iff, eq_comm]

/-- A list holds entries of one kind. -/
theorem InList.exists_offsets (reading : tables.Reads table read next kind value) {entries : List RomEntry}
    (list : tables.InList link entries) (leads : tables.target? link = entryAt? kind offset) :
    ∃ offsets : List Nat, entries = offsets.map kind := by
  induction list generalizing offset with
  | done => exact ⟨[], rfl⟩
  | @entry link entry rest found _ _ inductionHypothesis =>
    obtain rfl : entry = kind offset := by
      rw [found, entryAt?] at leads
      split at leads <;> cases leads
      rfl
    obtain ⟨offsets, rfl⟩ := inductionHypothesis reading.behind
    exact ⟨offset :: offsets, rfl⟩

theorem linked_step : linked table read next reached offset = .ok (entries, after) ↔
    offset = listEnd ∧ entries = [] ∧ after = reached ∨
    offset ≠ listEnd ∧ offset ∉ reached ∧ offset < table.length ∧ ∃ entry rest, read table offset = .ok entry ∧
      linked table read next (offset :: reached) (next entry) = .ok (rest, after) ∧ entries = entry :: rest := by
  rw [linked]
  split
  · next ends => simp [ends, eq_comm]
  · next present =>
    split
    · next repeats => simp [present, repeats]
    · next new =>
      split
      · next outside => simp [present, Nat.not_lt_of_le outside]
      · next inside =>
        cases read table offset with
        | error error => simp [present]
        | ok entry =>
          simp only [present, new, Nat.lt_of_not_le inside, false_and, false_or, not_false_eq_true, true_and, ne_eq,
            Except.ok.injEq, exists_and_left, exists_eq_left']
          cases linked table read next (offset :: reached) (next entry) with
          | error error => simp
          | ok result =>
            obtain ⟨rest, last⟩ := result
            simp [eq_comm, and_comm]

/-- A list is read if its entries lie in their table, none comes twice and none was reached before. -/
theorem linked_eq_ok_iff (reading : tables.Reads table read next kind value)
    (leads : tables.target? link = entryAt? kind offset) :
    linked table read next reached offset = .ok (entries, after) ↔ ∃ offsets : List Nat,
      tables.InList link (offsets.map kind) ∧ offsets.Nodup ∧ (∀ offset ∈ offsets, offset ∉ reached) ∧
        entries = offsets.map value ∧ after = offsets.reverse ++ reached := by
  induction entries generalizing link offset reached with
  | nil =>
    rw [linked_step]
    constructor
    · rintro (⟨rfl, -, rfl⟩ | ⟨-, -, -, _, _, -, -, ⟨⟩⟩)
      exact ⟨[], .done leads, List.nodup_nil, fun _ member => absurd member List.not_mem_nil, rfl, rfl⟩
    · rintro ⟨offsets, list, -, -, empty, rfl⟩
      obtain rfl := List.map_eq_nil_iff.mp empty.symm
      cases list with
      | done ends => exact .inl ⟨entryAt?_eq_none_iff.mp (leads.symm.trans ends), rfl, rfl⟩
  | cons entry entries inductionHypothesis =>
    rw [linked_step]
    constructor
    · rintro (⟨-, ⟨⟩, -⟩ | ⟨present, new, -, _, _, read, behind, ⟨⟩⟩)
      obtain ⟨holds, rfl⟩ := reading.reads.mp read
      obtain ⟨offsets, list, distinct, fresh, rfl, rfl⟩ := (inductionHypothesis reading.behind).mp behind
      refine ⟨offset :: offsets, .entry (leads.trans (if_neg present)) holds list, ?_, ?_, rfl, by simp⟩
      · exact List.nodup_cons.mpr ⟨fun member => fresh offset member (.head _), distinct⟩
      · exact List.forall_mem_cons.mpr ⟨new, fun other member old => fresh other member (.tail _ old)⟩
    · rintro ⟨offsets, list, distinct, fresh, same, rfl⟩
      cases offsets with
      | nil => cases same
      | cons head offsets =>
        cases same
        cases list with
        | entry found holds list =>
          obtain ⟨present, rfl⟩ := (entryAt?_eq_some_iff reading.injective).mp (leads.symm.trans found)
          obtain ⟨new, fresh⟩ := List.forall_mem_cons.mp fresh
          obtain ⟨once, distinct⟩ := List.nodup_cons.mp distinct
          refine .inr ⟨present, new, reading.below holds, _, _, reading.reads.mpr ⟨holds, rfl⟩, ?_, rfl⟩
          refine (inductionHypothesis reading.behind).mpr ⟨offsets, list, distinct, ?_, rfl, by simp⟩
          rintro other member (_ | ⟨_, old⟩)
          · exact once member
          · exact fresh other member old

end

/-! ## Listings -/

/-- The names from the root down, each behind a slash. -/
def joined (names : List String) : String := String.join (names.map ("/" ++ ·))

def directoryPath? : RomVisit → Option String
  | (.directory _, names) => some (joined names)
  | (.file _, _) => none

variable (tables) in
def filePath? : RomVisit → Option RomPath
  | (.directory _, _) => none
  | (.file offset, names) =>
    some ⟨joined names, tables.files.fieldAt (offset + 0x8) 8, tables.files.fieldAt (offset + 0x10) 8⟩

variable (tables) in
/-- The directories and the files among some entries, as a walk lists them. -/
def listing (visits : List RomVisit) : RomListing :=
  ⟨visits.filterMap directoryPath?, visits.filterMap tables.filePath?⟩

theorem joined_append (names : List String) (name : String) :
    joined (names ++ [name]) = pathIn (joined names) name := by
  simp [joined, pathIn, String.join, String.append_assoc]

theorem listing_append (before after : List RomVisit) :
    tables.listing (before ++ after) = (tables.listing before).append (tables.listing after) := by
  simp [listing, RomListing.append]

theorem foldl_append (files : RomListing) (listings : List RomListing) :
    listings.foldl RomListing.append files = files.append (listings.foldl RomListing.append {}) := by
  induction listings generalizing files with
  | nil => simp [RomListing.append]
  | cons listing listings inductionHypothesis =>
    rw [List.foldl_cons, List.foldl_cons, inductionHypothesis, inductionHypothesis (RomListing.append {} listing)]
    simp [RomListing.append]

end RomTables

/-! ## Marks -/

/-- The entry was reached. -/
def RomReached.Has (reached : RomReached) : RomEntry → Prop
  | .directory offset => offset ∈ reached.directories
  | .file offset => offset ∈ reached.files

/-- The entries of an order that were not reached before are reached now, and nothing else is. -/
def RomReached.Marks (before after : RomReached) (visits : List RomVisit) : Prop :=
  ∀ entry, after.Has entry ↔ before.Has entry ∨ entry ∈ visits.map Prod.fst

theorem RomReached.Marks.trans {before middle after : RomReached} {first second : List RomVisit}
    (marks : before.Marks middle first) (more : middle.Marks after second) : before.Marks after (first ++ second) := by
  intro entry
  rw [more, marks, List.map_append, List.mem_append, or_assoc]

namespace RomTables

variable {α β : Type} {tables : RomTables} {names : List String} {visits : List RomVisit}
  {reached after : RomReached} {result : RomListing}

/-- No entry of the order was reached before or comes twice, and no directory is too deep. -/
structure Fresh (reached : RomReached) (visits : List RomVisit) : Prop where
  once : (visits.map Prod.fst).Nodup
  unseen : ∀ entry ∈ visits.map Prod.fst, ¬ reached.Has entry
  shallow : ∀ {offset names}, (.directory offset, names) ∈ visits → names.length ≤ maxDepth

theorem run_bind_eq_ok_iff {action : WalkM α} {next : α → WalkM β} {last : β × RomReached} :
    (action >>= next).run reached = .ok last ↔
      ∃ value middle, action.run reached = .ok (value, middle) ∧ (next value).run middle = .ok last := by
  rw [StateT.run_bind]
  cases action.run reached with
  | error error => simp [bind, Except.bind]
  | ok found =>
    obtain ⟨value, middle⟩ := found
    simp [bind, Except.bind]

theorem run_pure_eq_ok_iff {value : α} {last : α × RomReached} :
    (pure value : WalkM α).run reached = .ok last ↔ last = (value, reached) := by
  constructor
  · rintro ⟨⟩
    rfl
  · rintro rfl
    rfl

/-! ## One level -/

variable {offset levels : Nat}

theorem filesOf_run (links : RomLinks) : (tables.filesOf links).run reached =
    (linked tables.files RomFile.read RomFile.next reached.files links.firstFile).map
      fun found => (found.1, { reached with files := found.2 }) := by
  simp only [filesOf, StateT.run_bind, StateT.run_get, pure_bind, StateT.run_monadLift]
  cases linked tables.files RomFile.read RomFile.next reached.files links.firstFile <;> rfl

theorem directoriesOf_run (links : RomLinks) : (tables.directoriesOf links).run reached =
    (linked tables.directories RomDirectory.read RomDirectory.next reached.directories links.firstDirectory).map
      fun found => (found.1, { reached with directories := found.2 }) := by
  simp only [directoriesOf, StateT.run_bind, StateT.run_get, pure_bind, StateT.run_monadLift]
  cases linked tables.directories RomDirectory.read RomDirectory.next reached.directories links.firstDirectory <;> rfl

theorem filesOf_eq_ok_iff {entries : List RomFile} :
    (tables.filesOf (tables.linksAt offset)).run reached = .ok (entries, after) ↔ ∃ offsets : List Nat,
      tables.InList (.firstFile offset) (offsets.map .file) ∧ offsets.Nodup ∧
        (∀ offset ∈ offsets, offset ∉ reached.files) ∧ entries = offsets.map tables.fileAt ∧
        after = { reached with files := offsets.reverse ++ reached.files } := by
  have leads : tables.target? (.firstFile offset) = entryAt? .file (tables.linksAt offset).firstFile := rfl
  rw [filesOf_run]
  constructor
  · intro read
    cases found : linked tables.files RomFile.read RomFile.next reached.files (tables.linksAt offset).firstFile with
    | error error => cases found ▸ read
    | ok result =>
      cases found ▸ read
      obtain ⟨offsets, list, distinct, new, same, marked⟩ := (linked_eq_ok_iff reads_file leads).mp found
      exact ⟨offsets, list, distinct, new, same, by rw [marked]⟩
  · rintro ⟨offsets, list, distinct, new, rfl, rfl⟩
    rw [(linked_eq_ok_iff reads_file leads).mpr ⟨offsets, list, distinct, new, rfl, rfl⟩]
    rfl

theorem directoriesOf_eq_ok_iff {entries : List RomDirectory} :
    (tables.directoriesOf (tables.linksAt offset)).run reached = .ok (entries, after) ↔ ∃ offsets : List Nat,
      tables.InList (.firstDirectory offset) (offsets.map .directory) ∧ offsets.Nodup ∧
        (∀ offset ∈ offsets, offset ∉ reached.directories) ∧ entries = offsets.map tables.directoryAt ∧
        after = { reached with directories := offsets.reverse ++ reached.directories } := by
  have leads : tables.target? (.firstDirectory offset) =
    entryAt? .directory (tables.linksAt offset).firstDirectory := rfl
  rw [directoriesOf_run]
  constructor
  · intro read
    cases found : linked tables.directories RomDirectory.read RomDirectory.next reached.directories
        (tables.linksAt offset).firstDirectory with
    | error error => cases found ▸ read
    | ok result =>
      cases found ▸ read
      obtain ⟨offsets, list, distinct, new, same, marked⟩ := (linked_eq_ok_iff reads_directory leads).mp found
      exact ⟨offsets, list, distinct, new, same, by rw [marked]⟩
  · rintro ⟨offsets, list, distinct, new, rfl, rfl⟩
    rw [(linked_eq_ok_iff reads_directory leads).mpr ⟨offsets, list, distinct, new, rfl, rfl⟩]
    rfl

/-- Files hold nothing. -/
theorem listVisits_files {offsets : List Nat} : tables.ListVisits names (offsets.map .file) visits ↔
    visits = offsets.map fun offset => (.file offset, names ++ [tables.nameOf (.file offset)]) := by
  induction offsets generalizing visits with
  | nil =>
    constructor
    · rintro ⟨⟩
      rfl
    · rintro rfl
      exact .nil
  | cons offset offsets inductionHypothesis =>
    constructor
    · rintro (_ | ⟨held, rest⟩)
      cases held
      rw [inductionHypothesis.mp rest]
      rfl
    · rintro rfl
      have nothing : tables.Visits (tables.heldBy (.file offset) names) [] := .done
      exact .cons nothing (inductionHypothesis.mpr rfl)

theorem listFiles_sound
    (walked : (tables.listFiles (joined names) (tables.linksAt offset)).run reached = .ok (result, after)) :
    ∃ visits, tables.Visits [⟨.firstFile offset, names⟩] visits ∧ Fresh reached visits ∧
      result = tables.listing visits ∧ reached.Marks after visits := by
  obtain ⟨entries, middle, read, last⟩ := run_bind_eq_ok_iff.mp walked
  cases run_pure_eq_ok_iff.mp last
  obtain ⟨offsets, list, distinct, new, rfl, rfl⟩ := filesOf_eq_ok_iff.mp read
  refine ⟨_, visits_iff.mpr ⟨_, list, listVisits_files.mpr rfl⟩, ⟨?_, ?_, ?_⟩, ?_, ?_⟩
  · rw [List.map_map]
    exact distinct.map fun _ _ same => RomEntry.file.inj same
  · simpa [RomReached.Has] using new
  · simp
  · simp [listing, List.filterMap_map, directoryPath?, filePath?, Function.comp_def, joined_append, fileAt]
  · rintro (offset | offset) <;> simp [RomReached.Has, or_comm]

theorem listFiles_complete (order : tables.Visits [⟨.firstFile offset, names⟩] visits) (fresh : Fresh reached visits) :
    ∃ after, (tables.listFiles (joined names) (tables.linksAt offset)).run reached = .ok (tables.listing visits, after) ∧
      reached.Marks after visits := by
  obtain ⟨entries, list, each⟩ := visits_iff.mp order
  obtain ⟨offsets, rfl⟩ := list.exists_offsets reads_file rfl
  obtain rfl := listVisits_files.mp each
  have distinct : offsets.Nodup := by
    have once := fresh.once
    rw [List.map_map] at once
    exact once.of_map _
  have new : ∀ offset ∈ offsets, offset ∉ reached.files := by simpa [RomReached.Has] using fresh.unseen
  refine ⟨{ reached with files := offsets.reverse ++ reached.files }, ?_, ?_⟩
  · refine run_bind_eq_ok_iff.mpr ⟨_, _, filesOf_eq_ok_iff.mpr ⟨offsets, list, distinct, new, rfl, rfl⟩, ?_⟩
    refine run_pure_eq_ok_iff.mpr ?_
    simp [listing, List.filterMap_map, directoryPath?, filePath?, Function.comp_def, joined_append, fileAt]
  · rintro (offset | offset) <;> simp [RomReached.Has, or_comm]

/-! ## All levels -/

/-- What is done with each directory of a list. -/
def enter (tables : RomTables) (levels : Nat) (path : String) (entry : RomDirectory) : WalkM RomListing := do
  let listing ← tables.walkFrom levels (pathIn path entry.name) entry.links
  return RomListing.append ⟨[pathIn path entry.name], []⟩ listing

theorem walkFrom_succ (path : String) (links : RomLinks) : tables.walkFrom (levels + 1) path links = do
    let files ← tables.listFiles path links
    let entries ← tables.directoriesOf links
    let below ← entries.mapM (tables.enter levels path)
    return below.foldl RomListing.append files := rfl

/-- A directory that is entered was reached with its list, and what it holds was not reached. -/
def Sound (tables : RomTables) (levels : Nat) : Prop :=
  ∀ {offset names reached result after}, names.length + levels = maxDepth →
    (tables.walkFrom levels (joined names) (tables.linksAt offset)).run reached = .ok (result, after) →
    ∃ visits, tables.Visits (linksBelow offset names) visits ∧ Fresh reached visits ∧
      result = tables.listing visits ∧ reached.Marks after visits

def Complete (tables : RomTables) (levels : Nat) : Prop :=
  ∀ {offset names reached visits}, names.length + levels = maxDepth →
    tables.Visits (linksBelow offset names) visits → Fresh reached visits →
    ∃ after, (tables.walkFrom levels (joined names) (tables.linksAt offset)).run reached =
      .ok (tables.listing visits, after) ∧ reached.Marks after visits

/-- The state between the directories of a list: they were reached, and of what they hold nothing was. -/
structure Entering (reached : RomReached) (offsets : List Nat) (visits : List RomVisit) : Prop where
  listed : ∀ offset ∈ offsets, reached.Has (.directory offset)
  once : (visits.map Prod.fst).Nodup
  unseen : ∀ entry ∈ visits.map Prod.fst, reached.Has entry → entry ∈ offsets.map RomEntry.directory
  shallow : ∀ {offset names}, (.directory offset, names) ∈ visits → names.length ≤ maxDepth

section
variable {offsets : List Nat} {path : List String} {held : List RomVisit} {middle : RomReached}

theorem Entering.nil (listed : ∀ offset ∈ offsets, reached.Has (.directory offset)) : Entering reached offsets [] :=
  ⟨listed, List.nodup_nil, fun _ member => absurd member List.not_mem_nil,
    fun member => absurd member List.not_mem_nil⟩

theorem Entering.cons (listed : ∀ other ∈ offset :: offsets, reached.Has (.directory other)) (own : offset ∉ offsets)
    (short : path.length ≤ maxDepth) (fresh : Fresh reached held) (marks : reached.Marks middle held)
    (entering : Entering middle offsets visits) :
    Entering reached (offset :: offsets) ((.directory offset, path) :: (held ++ visits)) := by
  obtain ⟨first, others⟩ := List.forall_mem_cons.mp listed
  refine ⟨listed, ?_, ?_, ?_⟩
  · rw [List.map_cons, List.map_append, List.nodup_cons, List.mem_append, List.nodup_append]
    refine ⟨?_, fresh.once, entering.once, ?_⟩
    · rintro (below | behind)
      · exact fresh.unseen _ below first
      · have again := entering.unseen _ behind ((marks _).mpr (.inl first))
        exact own (by simpa using again)
    · rintro entry below _ behind rfl
      obtain ⟨other, member, rfl⟩ := List.mem_map.mp (entering.unseen entry behind ((marks _).mpr (.inr below)))
      exact fresh.unseen _ below (others other member)
  · rw [List.map_cons, List.map_append]
    rintro entry (_ | ⟨_, member⟩) has
    · exact .head _
    · obtain below | behind := List.mem_append.mp member
      · exact absurd has (fresh.unseen entry below)
      · exact .tail _ (entering.unseen entry behind ((marks _).mpr (.inl has)))
  · rintro other names (_ | ⟨_, member⟩)
    · exact short
    · obtain below | behind := List.mem_append.mp member
      · exact fresh.shallow below
      · exact entering.shallow behind

theorem Entering.fresh (entering : Entering reached (offset :: offsets) ((.directory offset, path) :: (held ++ visits)))
    (among : offsets.map RomEntry.directory ⊆ visits.map Prod.fst) : Fresh reached held := by
  have once := entering.once
  rw [List.map_cons, List.map_append, List.nodup_cons, List.mem_append, List.nodup_append] at once
  obtain ⟨own, once, -, apart⟩ := once
  refine ⟨once, ?_, fun member => entering.shallow (.tail _ (List.mem_append_left _ member))⟩
  intro entry below has
  have mentioned : entry ∈ ((RomEntry.directory offset, path) :: (held ++ visits)).map Prod.fst := by
    rw [List.map_cons, List.map_append]
    exact .tail _ (List.mem_append_left _ below)
  obtain rfl | listed := List.mem_cons.mp (entering.unseen entry mentioned has)
  · exact own (.inl below)
  · exact apart entry below entry (among listed) rfl

theorem Entering.rest (entering : Entering reached (offset :: offsets) ((.directory offset, path) :: (held ++ visits)))
    (marks : reached.Marks middle held) : Entering middle offsets visits := by
  have once := entering.once
  rw [List.map_cons, List.map_append, List.nodup_cons, List.mem_append, List.nodup_append] at once
  obtain ⟨own, -, once, apart⟩ := once
  refine ⟨fun other member => (marks _).mpr (.inl (entering.listed other (.tail _ member))), once, ?_,
    fun member => entering.shallow (.tail _ (List.mem_append_right _ member))⟩
  intro entry behind has
  obtain has | below := (marks entry).mp has
  · have mentioned : entry ∈ ((RomEntry.directory offset, path) :: (held ++ visits)).map Prod.fst := by
      rw [List.map_cons, List.map_append]
      exact .tail _ (List.mem_append_right _ behind)
    obtain rfl | listed := List.mem_cons.mp (entering.unseen entry mentioned has)
    · exact absurd (.inr behind) own
    · exact listed
  · exact absurd rfl (apart entry below entry behind)

theorem marks_cons (first : reached.Has (.directory offset)) (marks : reached.Marks middle held)
    (more : middle.Marks after visits) : reached.Marks after ((.directory offset, path) :: (held ++ visits)) := by
  intro entry
  rw [more, marks, List.map_cons, List.map_append, List.mem_cons, List.mem_append, or_assoc]
  refine ⟨Or.imp_right .inr, ?_⟩
  rintro (has | rfl | mentioned)
  · exact .inl has
  · exact .inl first
  · exact .inr mentioned

end

theorem enter_eq_ok_iff {last : RomListing × RomReached} :
    (tables.enter levels (joined names) (tables.directoryAt offset)).run reached = .ok last ↔ ∃ result after,
      (tables.walkFrom levels (joined (names ++ [tables.nameOf (.directory offset)])) (tables.linksAt offset)).run
        reached = .ok (result, after) ∧
      last = (RomListing.append ⟨[joined (names ++ [tables.nameOf (.directory offset)])], []⟩ result, after) := by
  rw [joined_append]
  refine run_bind_eq_ok_iff.trans ?_
  exact exists_congr fun result => exists_congr fun after => and_congr_right fun _ => run_pure_eq_ok_iff

theorem gathered {held : List RomVisit} {results : List RomListing}
    (rest : results.foldl RomListing.append {} = tables.listing visits) :
    (RomListing.append ⟨[joined names], []⟩ (tables.listing held) :: results).foldl RomListing.append {} =
      tables.listing ((.directory offset, names) :: (held ++ visits)) := by
  rw [List.foldl_cons, foldl_append, rest]
  simp [RomListing.append, listing, List.filterMap_cons, directoryPath?, filePath?]

theorem enterAll_sound (sound : tables.Sound levels) (deep : names.length + 1 + levels = maxDepth) {offsets : List Nat}
    (distinct : offsets.Nodup) (listed : ∀ offset ∈ offsets, reached.Has (.directory offset))
    {results : List RomListing}
    (walked : ((offsets.map tables.directoryAt).mapM (tables.enter levels (joined names))).run reached =
      .ok (results, after)) :
    ∃ visits, tables.ListVisits names (offsets.map .directory) visits ∧ Entering reached offsets visits ∧
      results.foldl RomListing.append {} = tables.listing visits ∧ reached.Marks after visits := by
  induction offsets generalizing reached results with
  | nil =>
    rw [List.map_nil, List.mapM_nil] at walked
    cases run_pure_eq_ok_iff.mp walked
    exact ⟨[], .nil, .nil listed, rfl, by simp [RomReached.Marks]⟩
  | cons offset offsets inductionHypothesis =>
    obtain ⟨own, distinct⟩ := List.nodup_cons.mp distinct
    obtain ⟨first, others⟩ := List.forall_mem_cons.mp listed
    rw [List.map_cons, List.mapM_cons] at walked
    obtain ⟨result, middle, entered, walked⟩ := run_bind_eq_ok_iff.mp walked
    obtain ⟨results, last, rest, ends⟩ := run_bind_eq_ok_iff.mp walked
    cases run_pure_eq_ok_iff.mp ends
    obtain ⟨below, middle, descended, ⟨⟩⟩ := enter_eq_ok_iff.mp entered
    obtain ⟨held, order, fresh, rfl, marks⟩ := sound (by simpa using deep) descended
    obtain ⟨visits, each, entering, gathers, more⟩ := inductionHypothesis distinct
      (fun offset member => (marks _).mpr (.inl (others offset member))) rest
    have short : (names ++ [tables.nameOf (.directory offset)]).length ≤ maxDepth := by
      rw [List.length_append, List.length_singleton]
      omega
    exact ⟨_, .cons order each, .cons listed own short fresh marks entering, gathered gathers,
      marks_cons first marks more⟩

theorem enterAll_complete (complete : tables.Complete levels) (deep : names.length + 1 + levels = maxDepth)
    {offsets : List Nat} (each : tables.ListVisits names (offsets.map .directory) visits)
    (entering : Entering reached offsets visits) :
    ∃ results after, ((offsets.map tables.directoryAt).mapM (tables.enter levels (joined names))).run reached =
        .ok (results, after) ∧
      results.foldl RomListing.append {} = tables.listing visits ∧ reached.Marks after visits := by
  induction offsets generalizing reached visits with
  | nil =>
    cases each
    exact ⟨[], reached, rfl, rfl, by simp [RomReached.Marks]⟩
  | cons offset offsets inductionHypothesis =>
    cases each with
    | @cons _ _ held visits order each =>
      have fresh := entering.fresh each.sublist.subset
      obtain ⟨middle, descended, marks⟩ := complete (by simpa using deep) order fresh
      obtain ⟨results, after, rest, gathers, more⟩ := inductionHypothesis each (entering.rest marks)
      refine ⟨_ :: results, after, ?_, gathered gathers, marks_cons (entering.listed offset (.head _)) marks more⟩
      rw [List.map_cons, List.mapM_cons]
      refine run_bind_eq_ok_iff.mpr ⟨_, middle, enter_eq_ok_iff.mpr ⟨_, _, descended, rfl⟩, ?_⟩
      exact run_bind_eq_ok_iff.mpr ⟨results, after, rest, rfl⟩

theorem Fresh.sublist {part : List RomVisit} (fresh : Fresh reached visits) (sublist : part.Sublist visits) :
    Fresh reached part where
  once := fresh.once.sublist (sublist.map _)
  unseen entry member := fresh.unseen entry ((sublist.map _).subset member)
  shallow member := fresh.shallow (sublist.subset member)

theorem fresh_append_iff {middle : RomReached} {files below : List RomVisit} (marks : reached.Marks middle files) :
    Fresh reached (files ++ below) ↔ Fresh reached files ∧ Fresh middle below := by
  constructor
  · intro fresh
    have second := fresh.sublist (List.sublist_append_right files below)
    refine ⟨fresh.sublist (List.sublist_append_left files below), second.once, ?_, second.shallow⟩
    intro entry member has
    obtain has | earlier := (marks entry).mp has
    · exact second.unseen entry member has
    · have once := fresh.once
      rw [List.map_append, List.nodup_append] at once
      exact once.2.2 entry earlier entry member rfl
  · rintro ⟨files, below⟩
    refine ⟨?_, ?_, ?_⟩
    · rw [List.map_append, List.nodup_append]
      refine ⟨files.once, below.once, ?_⟩
      rintro entry first _ second rfl
      exact below.unseen entry second ((marks entry).mpr (.inr first))
    · rw [List.map_append, List.forall_mem_append]
      exact ⟨files.unseen, fun entry member has => below.unseen entry member ((marks entry).mpr (.inl has))⟩
    · intro offset names member
      obtain first | second := List.mem_append.mp member
      · exact files.shallow first
      · exact below.shallow second

section
variable {offsets : List Nat}

/-- The state in which the directories of a list were reached, but none was entered. -/
def listed (reached : RomReached) (offsets : List Nat) : RomReached :=
  { reached with directories := offsets.reverse ++ reached.directories }

theorem has_listed {entry : RomEntry} : (listed reached offsets).Has entry ↔
    entry ∈ offsets.map RomEntry.directory ∨ reached.Has entry := by
  cases entry <;> simp [RomReached.Has, listed]

theorem fresh_iff_entering (among : offsets.map RomEntry.directory ⊆ visits.map Prod.fst) : Fresh reached visits ↔
    (∀ offset ∈ offsets, offset ∉ reached.directories) ∧ Entering (listed reached offsets) offsets visits := by
  constructor
  · intro fresh
    refine ⟨fun offset member => fresh.unseen _ (among (List.mem_map_of_mem member)), ?_, fresh.once, ?_,
      fresh.shallow⟩
    · exact fun offset member => has_listed.mpr (.inl (List.mem_map_of_mem member))
    · intro entry member has
      exact (has_listed.mp has).resolve_right (fresh.unseen entry member)
  · rintro ⟨new, entering⟩
    refine ⟨entering.once, fun entry member has => ?_, entering.shallow⟩
    obtain ⟨offset, again, rfl⟩ := List.mem_map.mp (entering.unseen entry member (has_listed.mpr (.inr has)))
    exact new offset again has

theorem marks_of_listed (among : offsets.map RomEntry.directory ⊆ visits.map Prod.fst)
    (marks : (listed reached offsets).Marks after visits) : reached.Marks after visits := by
  intro entry
  rw [marks, has_listed]
  constructor
  · rintro ((member | has) | member)
    · exact .inr (among member)
    · exact .inl has
    · exact .inr member
  · exact Or.imp_left .inr

end

/-- The walk visits what a directory holds in order. -/
theorem walkFrom_sound : ∀ levels, tables.Sound levels := by
  intro levels
  induction levels with
  | zero =>
    intro offset names reached result after deep walked
    obtain ⟨files, middle, first, last⟩ := run_bind_eq_ok_iff.mp walked
    obtain ⟨visits, order, fresh, rfl, marks⟩ := listFiles_sound first
    split at last
    · cases last
    · next ends =>
      cases run_pure_eq_ok_iff.mp last
      have ends : tables.target? (.firstDirectory offset) = none := entryAt?_eq_none_iff.mpr (not_not.mp ends)
      have nothing : tables.Visits [⟨.firstDirectory offset, names⟩] [] := .skip ends .done
      have whole := order.append nothing
      rw [List.append_nil] at whole
      exact ⟨visits, whole, fresh, rfl, marks⟩
  | succ levels inductionHypothesis =>
    intro offset names reached result after deep walked
    rw [walkFrom_succ] at walked
    obtain ⟨files, middle, first, walked⟩ := run_bind_eq_ok_iff.mp walked
    obtain ⟨entries, state, second, walked⟩ := run_bind_eq_ok_iff.mp walked
    obtain ⟨results, last, third, ends⟩ := run_bind_eq_ok_iff.mp walked
    cases run_pure_eq_ok_iff.mp ends
    obtain ⟨before, own, fresh, rfl, marks⟩ := listFiles_sound first
    obtain ⟨offsets, list, distinct, new, rfl, rfl⟩ := directoriesOf_eq_ok_iff.mp second
    obtain ⟨below, each, entering, gathers, more⟩ := enterAll_sound inductionHypothesis (by omega) distinct
      (fun offset member => has_listed.mpr (.inl (List.mem_map_of_mem member))) third
    have among := each.sublist.subset
    refine ⟨before ++ below, own.append (visits_iff.mpr ⟨_, list, each⟩), ?_, ?_, ?_⟩
    · exact (fresh_append_iff marks).mpr ⟨fresh, (fresh_iff_entering among).mpr ⟨new, entering⟩⟩
    · rw [foldl_append, gathers, listing_append]
    · exact marks.trans (marks_of_listed among more)

/-- What a directory holds is walked if it has an order of visits and nothing of it was reached. -/
theorem walkFrom_complete : ∀ levels, tables.Complete levels := by
  intro levels
  induction levels with
  | zero =>
    intro offset names reached visits deep order fresh
    obtain ⟨files, below, own, deeper, rfl⟩ := order.split_below
    obtain ⟨entries, list, each⟩ := visits_iff.mp deeper
    obtain ⟨offsets, rfl⟩ := list.exists_offsets reads_directory rfl
    cases offsets with
    | nil =>
      cases each
      cases list with
      | done ends =>
        obtain ⟨after, first, marks⟩ := listFiles_complete own (by rwa [List.append_nil] at fresh)
        rw [List.append_nil]
        refine ⟨after, run_bind_eq_ok_iff.mpr ⟨_, _, first, ?_⟩, marks⟩
        have ends : (tables.linksAt offset).firstDirectory = listEnd := entryAt?_eq_none_iff.mp ends
        dsimp only
        rw [if_neg (not_not.mpr ends)]
        rfl
    | cons child rest =>
      -- a directory below would be too deep
      cases each
      have short := fresh.shallow (List.mem_append_right _ (.head _))
      rw [List.length_append, List.length_singleton] at short
      omega
  | succ levels inductionHypothesis =>
    intro offset names reached visits deep order fresh
    obtain ⟨files, below, own, deeper, rfl⟩ := order.split_below
    obtain ⟨entries, list, each⟩ := visits_iff.mp deeper
    obtain ⟨offsets, rfl⟩ := list.exists_offsets reads_directory rfl
    have among := each.sublist.subset
    have distinct : offsets.Nodup :=
      ((fresh.sublist (List.sublist_append_right files below)).once.sublist each.sublist).of_map _
    obtain ⟨middle, first, marks⟩ := listFiles_complete own (fresh.sublist (List.sublist_append_left files below))
    obtain ⟨fresh, rest⟩ := (fresh_append_iff marks).mp fresh
    obtain ⟨new, entering⟩ := (fresh_iff_entering among).mp rest
    obtain ⟨results, after, third, gathers, more⟩ := enterAll_complete inductionHypothesis (by omega) each entering
    refine ⟨after, ?_, marks.trans (marks_of_listed among more)⟩
    rw [walkFrom_succ]
    refine run_bind_eq_ok_iff.mpr ⟨_, middle, first, ?_⟩
    refine run_bind_eq_ok_iff.mpr ⟨_, _, directoriesOf_eq_ok_iff.mpr ⟨offsets, list, distinct, new, rfl, rfl⟩, ?_⟩
    refine run_bind_eq_ok_iff.mpr ⟨results, after, third, run_pure_eq_ok_iff.mpr ?_⟩
    rw [foldl_append, gathers, listing_append]

/-! ## The whole walk -/

theorem fresh_root_iff : Fresh { directories := [0] } visits ↔ (visits.map Prod.fst).Nodup ∧
    .directory 0 ∉ visits.map Prod.fst ∧ ∀ {offset names}, (.directory offset, names) ∈ visits →
      names.length ≤ maxDepth := by
  have root : ∀ entry, RomReached.Has { directories := [0] } entry ↔ entry = .directory 0 := by
    rintro (offset | offset) <;> simp [RomReached.Has]
  constructor
  · rintro ⟨once, unseen, shallow⟩
    exact ⟨once, fun member => unseen _ member ((root _).mpr rfl), shallow⟩
  · rintro ⟨once, rootOnce, shallow⟩
    exact ⟨once, fun entry member has => rootOnce ((root entry).mp has ▸ member), shallow⟩

/-- Without a directory table there is nothing to walk; otherwise the walk lists a tour. -/
theorem walk_eq_ok_iff : tables.walk = .ok result ↔ tables.directories = [] ∧ result = {} ∨
    ∃ visits, tables.Tour visits ∧ result = tables.listing visits := by
  by_cases empty : tables.directories = []
  · have absent : ¬ ∃ visits, tables.Tour visits ∧ result = tables.listing visits := by
      rintro ⟨visits, ⟨root, -⟩, -⟩
      rw [empty] at root
      cases root
    rw [walk, if_pos empty, or_iff_left absent]
    simp [empty, pure, Except.pure, eq_comm]
  · rw [walk, if_neg empty, or_iff_right (fun both => empty both.1)]
    constructor
    · intro walked
      obtain ⟨links, first, walked⟩ := ok_of_bind walked
      have root := inside_of_readLinks first
      cases (readLinks_eq root).symm.trans first
      obtain ⟨⟨_, after⟩, walked, ⟨⟩⟩ := ok_of_bind walked
      have sound : tables.Sound maxDepth := walkFrom_sound maxDepth
      obtain ⟨visits, order, fresh, rfl, -⟩ := sound (show [].length + maxDepth = maxDepth from rfl) walked
      obtain ⟨once, rootOnce, shallow⟩ := fresh_root_iff.mp fresh
      exact ⟨visits, ⟨root, order, once, rootOnce, shallow⟩, rfl⟩
    · rintro ⟨visits, ⟨root, order, once, rootOnce, shallow⟩, rfl⟩
      obtain ⟨after, walked, -⟩ := walkFrom_complete maxDepth (Nat.zero_add _) order
        (fresh_root_iff.mpr ⟨once, rootOnce, shallow⟩)
      rw [readLinks_eq root, ok_bind]
      exact congrArg (· >>= fun found => .ok found.1) walked

/-- Which tables are walked, and what the walk lists: the walk succeeds exactly when following links from the root
    goes well, or there is no table of directories. It lists the entries that are reached, each once, in depth-first
    order. -/
theorem walk_exact (tables : RomTables) :
    ((∃ result, tables.walk = .ok result) ↔ tables.directories = [] ∨ tables.WellLinked) ∧
      ∀ result, tables.walk = .ok result ↔ tables.directories = [] ∧ result = {} ∨
        tables.WellLinked ∧ ∃ visits, tables.Visits (linksBelow 0 []) visits ∧ (visits.map Prod.fst).Nodup ∧
          (∀ entry names, (entry, names) ∈ visits ↔ tables.Reaches entry names) ∧
          result = tables.listing visits := by
  have tours : ∀ result, (∃ visits, tables.Tour visits ∧ result = tables.listing visits) ↔
      tables.WellLinked ∧ ∃ visits, tables.Visits (linksBelow 0 []) visits ∧ (visits.map Prod.fst).Nodup ∧
        (∀ entry names, (entry, names) ∈ visits ↔ tables.Reaches entry names) ∧ result = tables.listing visits := by
    intro result
    constructor
    · rintro ⟨visits, tour, rfl⟩
      exact ⟨wellLinked_iff.mpr ⟨visits, tour⟩, visits, tour.order, tour.once, fun _ _ => tour.order.mem_iff, rfl⟩
    · rintro ⟨wellLinked, visits, order, -, -, rfl⟩
      exact ⟨visits, wellLinked.tour order, rfl⟩
  refine ⟨?_, fun result => walk_eq_ok_iff.trans (or_congr Iff.rfl (tours result))⟩
  simp only [walk_eq_ok_iff, exists_or, exists_and_left, exists_eq, and_true, wellLinked_iff]
  exact or_congr Iff.rfl ⟨fun ⟨_, visits, tour, _⟩ => ⟨visits, tour⟩, fun ⟨visits, tour⟩ => ⟨_, visits, tour, rfl⟩⟩

end RomTables

end SealedContent
