import SealedContent.Proofs.Concurrency.Turns
import SealedContent.Storage.HashTree

/-! # Reads turn by turn

A thread that reads holds the lock while it looks a block up in a cache, inserts one, looks at a verdict, records one or
writes a warning down, and at no other time: what lies below a cache or a verified node is read between two turns.
`Storage.turns` is the read of a node by a thread. With nobody in between it is `Storage.read`: `Storage.turns_does`.
-/

namespace SealedContent

namespace ThreadM

/-! ## Single turns -/

/-- Looks a block up. A block that is held moves to the front. -/
def lookUp (table block : Nat) : ThreadM (Option Bytes) :=
  locked (·.modifyTable table (·.promote block)) fun session => (session.table table).find? block

/-- Puts a block that was fetched into a table. -/
def insert (table capacity block : Nat) (bytes : Bytes) : ThreadM Unit :=
  locked (·.modifyTable table (·.insert capacity block bytes)) fun _ => ()

/-- Looks at the verdict on a block. -/
def verdict (cell block : Nat) : ThreadM Validity := locked id fun session => (session.verdictsOf cell).verdict block

/-- Records one more check of a block and gives the verdict that is kept. -/
def record (cell block : Nat) (new : Validity) : ThreadM Validity :=
  locked (·.record cell block new) fun session => ((session.record cell block new).verdictsOf cell).verdict block

def warn (warning : Warning) : ThreadM Unit := locked (·.logged warning) fun _ => ()

/-! ## Blocks -/

/-- A block from the table, or from below into the table. The table is free while the block is fetched. -/
def cachedBlock (table blockSize capacity size : Nat) (inner : Fetch ThreadM) (block : Nat) : ThreadM Bytes := do
  match ← lookUp table block with
  | some bytes => return bytes
  | none =>
    let bytes ← inner (block * blockSize) (blockLength size blockSize block)
    insert table capacity block bytes
    return bytes

def readCached (table blockSize capacity size : Nat) (inner : Fetch ThreadM) (offset length : Nat) : ThreadM Bytes := do
  let blocks ← (touchedBlocks blockSize offset length).mapM (cachedBlock table blockSize capacity size inner)
  return cutRange blockSize offset length blocks

/-- A block of verified data and the verdict on it. The verdicts are free while the block and its hash are fetched. -/
def checkedBlock (cell : Nat) (check : BlockCheck) (size : Nat) (data hashes : Fetch ThreadM) (block : Nat) :
    ThreadM (Bytes × Validity) := do
  let bytes ← data (block * check.blockSize) (blockLength size check.blockSize block)
  let known ← verdict cell block
  if known ≠ .unchecked then return (bytes, known)
  let hash ← hashes (block * Sha256.size) Sha256.size
  let kept ← record cell block (check.verdict bytes hash)
  return (bytes, kept)

/-- What the policy makes of a verdict. -/
def enforce (check : BlockCheck) (block : Nat) (verdict : Validity) : ThreadM Unit :=
  if verdict = .invalid then
    match check.policy with
    | .fail => throw (.integrity check.level block)
    | .warn => warn (.hashMismatch check.level block)
    | .off | .ignore => pure ()
  else pure ()

def readVerified (cell : Nat) (check : BlockCheck) (size : Nat) (data hashes : Fetch ThreadM) (offset length : Nat) :
    ThreadM Bytes := do
  if check.policy = .off then data offset length
  else
    let blocks ← (touchedBlocks check.blockSize offset length).mapM fun block => do
      let (bytes, verdict) ← checkedBlock cell check size data hashes block
      enforce check block verdict
      return bytes
    return cutRange check.blockSize offset length blocks

end ThreadM

/-! ## Nodes -/

namespace Storage

mutual

/-- A range of a node, read by a thread. -/
def turns : Storage → (offset length : Nat) → ThreadM Bytes
  | memory bytes, offset, length =>
    ranged bytes.size offset length (pure (bytes.extract offset (offset + length)).toList)
  | stream source, offset, length =>
    ranged source.size offset length (pure (source.extract offset (offset + length)).toList)
  | slice parent start size, offset, length =>
    ranged size offset length (parent.turns (start + offset) length)
  | cache table inner blockSize capacity, offset, length =>
    ranged inner.size offset length
      (ThreadM.readCached table blockSize capacity inner.size (fun o n => inner.turns o n) offset length)
  | decrypt inner cipher, offset, length =>
    ranged inner.size offset length
      (readDecrypted cipher inner.size (fun o n => inner.turns o n) offset length)
  | concat segments, offset, length =>
    ranged (sizes segments) offset length (segmentsTurns segments offset length)
  | indirect base patch table, offset, length =>
    ranged table.size offset length
      (readRelocated table (fun o n => base.turns o n) (fun o n => patch.turns o n) offset length)
  | verified cell check data hashes, offset, length =>
    ranged data.size offset length
      (ThreadM.readVerified cell check data.size (fun o n => data.turns o n) (fun o n => hashes.turns o n)
        offset length)

/-- A range of several storages end to end, read by a thread. -/
def segmentsTurns : List Storage → (offset length : Nat) → ThreadM Bytes
  | [], _, _ => pure []
  | segment :: rest, offset, length =>
    if length = 0 then pure []
    else if segment.size ≤ offset then segmentsTurns rest (offset - segment.size) length
    else do
      let count := min (segment.size - offset) length
      let bytes ← segment.turns offset count
      let others ← segmentsTurns rest 0 (length - count)
      return bytes ++ others

end

end Storage

/-- The check of a block by a thread. -/
def HashLevel.checkTurns (level : HashLevel) (block : Nat) : ThreadM (Bytes × Validity) :=
  ThreadM.checkedBlock level.cell level.check level.data.size level.data.turns level.hashes.turns block

/-! ## One thread alone -/

/-- A lookup that finds nothing changes nothing. -/
theorem Session.modifyTable_promote {session : Session} {table block : Nat}
    (missing : (session.table table).find? block = none) :
    session.modifyTable table (·.promote block) = session := by
  have same : session.tables.modify table (·.promote block) = session.tables := by
    refine Array.ext Array.size_modify fun index _ inside => ?_
    rw [Array.getElem_modify]
    split
    · next here =>
      subst here
      rw [Session.table, Array.getD_eq_getD_getElem?, Array.getElem?_eq_getElem inside, Option.getD_some] at missing
      rw [CacheTable.promote, missing]
    · rfl
  rw [modifyTable, same]

namespace ThreadM

variable {inner data hashes : Fetch ThreadM} {innerRead dataRead hashesRead : Fetch SessionM}

/-- A turn, and what comes after it, against a computation that starts in the same session. -/
theorem Does.locked {α β : Type} {change : Session → Session} {seen : Session → α} {after : α → ThreadM β}
    {action : SessionM β}
    (each : ∀ session, (after (seen session)).alone.run.run (change session) = action.run.run session) :
    (locked change seen >>= after).Does action := funext each

theorem cachedBlock_does (same : ∀ o n, (inner o n).Does (innerRead o n)) (table blockSize capacity size block : Nat) :
    (cachedBlock table blockSize capacity size inner block).Does
      (SealedContent.cachedBlock table blockSize capacity size innerRead block) := by
  have inserted : ∀ bytes, Does (do insert table capacity block bytes; return bytes)
      (do modify (·.modifyTable table (·.insert capacity block bytes)); return bytes) := fun _ => rfl
  have fetched := does_composes.bind (same (block * blockSize) (blockLength size blockSize block)) inserted
  refine .locked fun session => ?_
  simp only [SealedContent.cachedBlock]
  rw [SessionM.run_get_bind]
  cases held : (session.table table).find? block with
  | some bytes => rfl
  | none =>
    rw [Session.modifyTable_promote held]
    exact congrFun fetched session

theorem readCached_does (same : ∀ o n, (inner o n).Does (innerRead o n))
    (table blockSize capacity size offset length : Nat) :
    (readCached table blockSize capacity size inner offset length).Does
      (SealedContent.readCached table blockSize capacity size innerRead offset length) :=
  does_composes.bind (does_composes.mapM (cachedBlock_does same table blockSize capacity size) _) fun _ => rfl

theorem checkedBlock_does (fromData : ∀ o n, (data o n).Does (dataRead o n))
    (fromHashes : ∀ o n, (hashes o n).Does (hashesRead o n)) (cell : Nat) (check : BlockCheck) (size block : Nat) :
    (checkedBlock cell check size data hashes block).Does
      (SealedContent.checkedBlock cell check size dataRead hashesRead block) := by
  refine does_composes.bind (fromData _ _) fun bytes => .locked fun session => ?_
  rw [SessionM.run_get_bind]
  by_cases known : (session.verdictsOf cell).verdict block = .unchecked
  · have recorded : ∀ hash, Does (do
          let kept ← record cell block (check.verdict bytes hash)
          return (bytes, kept)) (do
        modify (·.record cell block (check.verdict bytes hash))
        return (bytes, ((← get).verdictsOf cell).verdict block)) := fun _ => rfl
    have fetched := does_composes.bind (fromHashes (block * Sha256.size) Sha256.size) recorded
    simp only [known, ne_eq, not_true_eq_false, if_false]
    exact congrFun fetched session
  · simp only [ne_eq, known, not_false_eq_true, if_true]
    rfl

theorem enforce_does (check : BlockCheck) (block : Nat) (verdict : Validity) :
    (enforce check block verdict).Does (check.enforce block verdict) := by
  simp only [enforce, BlockCheck.enforce]
  split
  · cases check.policy <;> rfl
  · rfl

theorem readVerified_does (fromData : ∀ o n, (data o n).Does (dataRead o n))
    (fromHashes : ∀ o n, (hashes o n).Does (hashesRead o n)) (cell : Nat) (check : BlockCheck)
    (size offset length : Nat) :
    (readVerified cell check size data hashes offset length).Does
      (SealedContent.readVerified cell check size dataRead hashesRead offset length) := by
  simp only [readVerified, SealedContent.readVerified]
  split
  · exact fromData _ _
  · refine does_composes.bind (does_composes.mapM (fun block => ?_) _) fun _ => rfl
    refine does_composes.bind (checkedBlock_does fromData fromHashes cell check size block) fun checked => ?_
    exact does_composes.bind (enforce_does check block checked.2) fun _ => rfl

end ThreadM

namespace Storage

mutual

/-- A thread that reads alone does what a read does. -/
theorem turns_does : ∀ (node : Storage) (offset length : Nat),
    (node.turns offset length).Does (node.read offset length)
  | memory bytes, offset, length => by
    simp only [turns, read]
    exact ThreadM.does_composes.ranged (ThreadM.does_composes.pure _)
  | stream source, offset, length => by
    simp only [turns, read]
    exact ThreadM.does_composes.ranged (ThreadM.does_composes.pure _)
  | slice parent start size, offset, length => by
    simp only [turns, read]
    exact ThreadM.does_composes.ranged (parent.turns_does _ _)
  | cache table inner blockSize capacity, offset, length => by
    simp only [turns, read]
    exact ThreadM.does_composes.ranged (ThreadM.readCached_does inner.turns_does _ _ _ _ _ _)
  | decrypt inner cipher, offset, length => by
    simp only [turns, read]
    exact ThreadM.does_composes.ranged (ThreadM.does_composes.readDecrypted inner.turns_does _ _ _ _)
  | concat segments, offset, length => by
    simp only [turns, read]
    exact ThreadM.does_composes.ranged (segmentsTurns_does segments _ _)
  | indirect base patch table, offset, length => by
    simp only [turns, read]
    exact ThreadM.does_composes.ranged
      (ThreadM.does_composes.readRelocated table base.turns_does patch.turns_does _ _)
  | verified cell check data hashes, offset, length => by
    simp only [turns, read]
    exact ThreadM.does_composes.ranged (ThreadM.readVerified_does data.turns_does hashes.turns_does _ _ _ _ _)

theorem segmentsTurns_does : ∀ (segments : List Storage) (offset length : Nat),
    (segmentsTurns segments offset length).Does (readSegments segments offset length)
  | [], _, _ => by
    simp only [segmentsTurns, readSegments]
    exact ThreadM.does_composes.pure _
  | segment :: rest, offset, length => by
    simp only [segmentsTurns, readSegments]
    split
    · exact ThreadM.does_composes.pure _
    · split
      · exact segmentsTurns_does rest _ _
      · refine ThreadM.does_composes.bind (segment.turns_does _ _) fun _ => ?_
        exact ThreadM.does_composes.bind (segmentsTurns_does rest _ _) fun _ => rfl

end

end Storage

theorem HashLevel.checkTurns_does (level : HashLevel) (block : Nat) :
    (level.checkTurns block).Does (level.checkBlock block) :=
  ThreadM.checkedBlock_does level.data.turns_does level.hashes.turns_does _ _ _ _

end SealedContent
