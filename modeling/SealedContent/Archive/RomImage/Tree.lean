import SealedContent.Bytes.Fields
import SealedContent.Text.Utf8

/-! # Directory trees

An image describes its tree in two tables, one of directory entries and one of file entries. Entries
are linked into lists: an entry names the next one of its directory by its offset in the table, a
directory also the first of its directories and of its files. The root is the directory at offset
zero.

* `RomLinks`, `RomDirectory`, `RomFile` — the entries.
* `linked` — the entries of one list. An entry that was reached before is refused, so every list ends.
* `RomTables.walk` — the files and directories below the root in depth-first order.
-/

namespace SealedContent

namespace RomTables

def listEnd : Nat := 0xFFFFFFFF

/-- How many levels directories may nest: paths have at most `0x300` bytes, at least two a level. -/
def maxDepth : Nat := 0x180

/-- The size of a directory entry without its name. -/
def directoryEntrySize : Nat := 0x18

/-- The size of a file entry without its name. -/
def fileEntrySize : Nat := 0x20

def entryName (table : Bytes) (lengthOffset nameOffset : Nat) : Except Error String := do
  let length ← table.numberAt lengthOffset 4
  return Utf8.decodeLossy (← table.bytesAt nameOffset length)

end RomTables

/-! ## Entries -/

/-- What a directory links to. -/
structure RomLinks where
  firstDirectory : Nat
  firstFile : Nat
deriving DecidableEq, Repr

/-- The links of the directory entry at an offset. -/
def RomLinks.read (table : Bytes) (offset : Nat) : Except Error RomLinks := do
  return ⟨← table.numberAt (offset + 0x8) 4, ← table.numberAt (offset + 0xC) 4⟩

/-- A directory entry. -/
structure RomDirectory where
  name : String
  next : Nat
  links : RomLinks
deriving DecidableEq, Repr

def RomDirectory.read (table : Bytes) (offset : Nat) : Except Error RomDirectory := do
  let name ← RomTables.entryName table (offset + 0x14) (offset + RomTables.directoryEntrySize)
  return ⟨name, ← table.numberAt (offset + 0x4) 4, ← RomLinks.read table offset⟩

/-- A file entry. -/
structure RomFile where
  name : String
  next : Nat
  /-- Where the file lies, counted from the start of the data. -/
  offset : Nat
  size : Nat
deriving DecidableEq, Repr

def RomFile.read (table : Bytes) (offset : Nat) : Except Error RomFile := do
  let name ← RomTables.entryName table (offset + 0x1C) (offset + RomTables.fileEntrySize)
  return ⟨name, ← table.numberAt (offset + 0x4) 4, ← table.numberAt (offset + 0x8) 8,
    ← table.numberAt (offset + 0x10) 8⟩

/-! ## Lists of entries -/

/-- The number of offsets below `limit` that were not reached yet. -/
def unreached (limit : Nat) (reached : List Nat) : Nat :=
  ((List.range limit).filter (· ∉ reached)).length

theorem unreached_cons_lt {limit offset : Nat} {reached : List Nat} (hlimit : offset < limit)
    (hnew : offset ∉ reached) : unreached limit (offset :: reached) < unreached limit reached := by
  have hsplit : (List.range limit).filter (· ∉ offset :: reached) =
      ((List.range limit).filter (· ∉ reached)).filter (· ≠ offset) := by
    rw [List.filter_filter]
    congr 1
    funext i
    simp
  rw [unreached, unreached, hsplit, List.length_filter_lt_length_iff_exists]
  exact ⟨offset, by simp [hlimit, hnew], by simp⟩

/-- The entries of the list that starts at an offset, and all offsets reached so far. An entry starts
    inside its table and is reached once. -/
def linked {Entry : Type} (table : Bytes) (read : Bytes → Nat → Except Error Entry)
    (next : Entry → Nat) (reached : List Nat) (offset : Nat) :
    Except Error (List Entry × List Nat) :=
  if offset = RomTables.listEnd then .ok ([], reached)
  else if _hnew : offset ∈ reached then .error (.format (.romEntryRepeated offset))
  else if _hlimit : table.length ≤ offset then .error .truncated
  else
    match read table offset with
    | .error e => .error e
    | .ok entry =>
      match linked table read next (offset :: reached) (next entry) with
      | .error e => .error e
      | .ok (rest, reached) => .ok (entry :: rest, reached)
termination_by unreached table.length reached
decreasing_by exact unreached_cons_lt (Nat.lt_of_not_le _hlimit) _hnew

/-! ## The tree -/

/-- The tables that describe a tree. -/
structure RomTables where
  directories : Bytes
  files : Bytes

/-- The offsets reached so far in each table. -/
structure RomReached where
  directories : List Nat := []
  files : List Nat := []

/-- A file of a tree. -/
structure RomPath where
  /-- The names from the root down, each behind a slash. -/
  path : String
  /-- Where the file lies, counted from the start of the data. -/
  offset : Nat
  size : Nat
deriving DecidableEq, Repr

/-- The directories and files below a directory, in depth-first order. -/
structure RomListing where
  directories : List String := []
  files : List RomPath := []
deriving DecidableEq, Repr

def RomListing.append (a b : RomListing) : RomListing :=
  ⟨a.directories ++ b.directories, a.files ++ b.files⟩

namespace RomTables

/-- A computation that marks the entries it reaches. -/
abbrev WalkM := StateT RomReached (Except Error)

def filesOf (tables : RomTables) (links : RomLinks) : WalkM (List RomFile) := do
  let reached ← get
  let (entries, offsets) ←
    linked tables.files RomFile.read RomFile.next reached.files links.firstFile
  set { reached with files := offsets }
  return entries

def directoriesOf (tables : RomTables) (links : RomLinks) : WalkM (List RomDirectory) := do
  let reached ← get
  let (entries, offsets) ←
    linked tables.directories RomDirectory.read RomDirectory.next reached.directories
      links.firstDirectory
  set { reached with directories := offsets }
  return entries

def pathIn (path name : String) : String := path ++ "/" ++ name

/-- The files of a directory as a listing. -/
def listFiles (tables : RomTables) (path : String) (links : RomLinks) : WalkM RomListing := do
  let entries ← tables.filesOf links
  return ⟨[], entries.map fun entry => ⟨pathIn path entry.name, entry.offset, entry.size⟩⟩

/-- Everything below a directory. Its own files come first, then each of its directories with what is
    below it. All directories of one list are reached before the first of them is entered. -/
def walkFrom (tables : RomTables) :
    (levels : Nat) → (path : String) → RomLinks → WalkM RomListing
  | 0, path, links => do
    let files ← tables.listFiles path links
    if links.firstDirectory ≠ listEnd then throw (.format (.romTooDeep maxDepth))
    return files
  | levels + 1, path, links => do
    let files ← tables.listFiles path links
    -- The whole list is reached here, before any of its directories is entered.
    let entries ← tables.directoriesOf links
    let below ← entries.mapM fun entry => do
      let listing ← walkFrom tables levels (pathIn path entry.name) entry.links
      return RomListing.append ⟨[pathIn path entry.name], []⟩ listing
    return below.foldl RomListing.append files

/-- Everything below the root. Without a directory table there is nothing. -/
def walk (tables : RomTables) : Except Error RomListing := do
  if tables.directories = [] then return {}
  let links ← RomLinks.read tables.directories 0
  let (listing, _) ← (tables.walkFrom maxDepth "" links).run { directories := [0] }
  return listing

end RomTables

end SealedContent
