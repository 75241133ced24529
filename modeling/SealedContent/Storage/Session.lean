import SealedContent.Bytes
import SealedContent.Error

/-! # Sessions

What reads remember. A storage is a value that never changes; the blocks that its caches hold, the
verdicts on its verified blocks and the warnings given so far live in a `Session`:

* `CacheTable` — the blocks of one cache, most recently used first.
* `Verdicts` — the verdicts on the blocks of one verified storage.
* `Session`, and `SessionM`, the computations that use one. A failure keeps what was remembered
  before it.
-/

namespace SealedContent

/-! ## Cache tables -/

/-- Blocks by index, most recently used first. -/
abbrev CacheTable := List (Nat × Bytes)

namespace CacheTable

def find? (table : CacheTable) (index : Nat) : Option Bytes :=
  (List.find? (fun entry => entry.1 == index) table).map (·.2)

def without (table : CacheTable) (index : Nat) : CacheTable :=
  table.filter fun entry => entry.1 != index

/-- The table after a use of a block that it holds: the block moves to the front. -/
def promote (table : CacheTable) (index : Nat) : CacheTable :=
  match table.find? index with
  | some bytes => (index, bytes) :: table.without index
  | none => table

/-- The table after a block was fetched: it stands at the front, replaces any other of its index, and
    the least recently used blocks beyond the capacity are dropped. -/
def insert (table : CacheTable) (capacity index : Nat) (bytes : Bytes) : CacheTable :=
  ((index, bytes) :: table.without index).take capacity

/-- The indices of the blocks, most recently used first. -/
def indices (table : CacheTable) : List Nat := table.map (·.1)

end CacheTable

/-! ## Verdicts -/

/-- The verdicts on the blocks up to the highest one checked so far. -/
abbrev Verdicts := Array Validity

namespace Verdicts

/-- The verdict on a block; blocks that were never checked are unchecked. -/
def verdict (verdicts : Verdicts) (block : Nat) : Validity := verdicts.getD block .unchecked

/-- The verdicts after one more check of a block. A failure is never taken back. -/
def record (verdicts : Verdicts) (block : Nat) (new : Validity) : Verdicts :=
  let grown := verdicts ++ Array.replicate (block + 1 - verdicts.size) Validity.unchecked
  grown.setIfInBounds block ((verdicts.verdict block).record new)

end Verdicts

/-! ## Sessions -/

/-- What reads remember. -/
structure Session where
  /-- The tables of the caches made so far. -/
  tables : Array CacheTable := #[]
  /-- The verdicts of the verified storages made so far. -/
  verdicts : Array Verdicts := #[]
  /-- The warnings given so far, the latest first. -/
  log : List Warning := []
deriving Inhabited

/-- A computation that uses a session and may fail. -/
abbrev SessionM := ExceptT Error (StateM Session)

namespace Session

def table (session : Session) (cache : Nat) : CacheTable := session.tables.getD cache []

/-- The session with the table of a cache changed. -/
def modifyTable (session : Session) (cache : Nat) (f : CacheTable → CacheTable) : Session :=
  { session with tables := session.tables.modify cache f }

def verdictsOf (session : Session) (cell : Nat) : Verdicts := session.verdicts.getD cell #[]

/-- The session with one more check recorded. -/
def record (session : Session) (cell block : Nat) (new : Validity) : Session :=
  { session with verdicts := session.verdicts.modify cell (·.record block new) }

def logged (session : Session) (warning : Warning) : Session :=
  { session with log := warning :: session.log }

/-- The warnings in the order in which they were given. -/
def warnings (session : Session) : List Warning := session.log.reverse

end Session

namespace SessionM

/-- Makes an empty cache table and gives its number. -/
def newTable : SessionM Nat :=
  modifyGet fun session =>
    (session.tables.size, { session with tables := session.tables.push [] })

/-- Makes an empty list of verdicts and gives its number. -/
def newVerdicts : SessionM Nat :=
  modifyGet fun session =>
    (session.verdicts.size, { session with verdicts := session.verdicts.push #[] })

def warn (warning : Warning) : SessionM Unit := modify (·.logged warning)

def warnAll (warnings : List Warning) : SessionM Unit := warnings.forM warn

end SessionM

end SealedContent
