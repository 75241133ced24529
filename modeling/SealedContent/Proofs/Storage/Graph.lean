import SealedContent.Proofs.Storage.Composing
import SealedContent.Proofs.Storage.Outcome

/-! # Graphs of storages

Storages share the nodes that they are built on. `Coherent nodes` describes a list of nodes that is
closed under going down, where every node was made by the rules (`WellMade`) and a table or a list of
verdicts belongs to one node only. `Remembers nodes session` says that a session holds nothing but
what reads of these nodes give. Reads keep this, so each of them gives its `Storage.outcome`:
`Storage.read_answers`.
-/

namespace SealedContent

/-! ## Tables and verdicts -/

namespace CacheTable

theorem mem_of_find? {table : CacheTable} {index : Nat} {bytes : Bytes}
    (found : table.find? index = some bytes) : (index, bytes) ∈ table := by
  obtain ⟨entry, first, rfl⟩ := Option.map_eq_some_iff.mp found
  have same : entry.1 = index := by simpa using List.find?_some first
  rw [← same]
  exact List.mem_of_find?_eq_some first

theorem mem_of_mem_insert {table : CacheTable} {capacity index : Nat} {bytes : Bytes}
    {entry : Nat × Bytes} (member : entry ∈ table.insert capacity index bytes) :
    entry = (index, bytes) ∨ entry ∈ table := by
  have member := List.mem_of_mem_take member
  cases List.mem_cons.mp member with
  | inl same => exact .inl same
  | inr old => exact .inr (List.mem_filter.mp old).1

theorem mem_of_mem_promote {table : CacheTable} {index : Nat} {entry : Nat × Bytes}
    (member : entry ∈ table.promote index) : entry ∈ table := by
  simp only [promote] at member
  split at member
  next bytes found =>
    cases List.mem_cons.mp member with
    | inl same => rw [same]; exact mem_of_find? found
    | inr old => exact (List.mem_filter.mp old).1
  next => exact member

end CacheTable

namespace Verdicts

theorem verdict_record (verdicts : Verdicts) (block other : Nat) (new : Validity) :
    (verdicts.record block new).verdict other =
      if other = block then (verdicts.verdict block).record new else verdicts.verdict other := by
  simp only [record, verdict, Array.getD_eq_getD_getElem?, Array.getElem?_setIfInBounds,
    Array.getElem?_append, Array.size_append, Array.size_replicate, Array.getElem?_replicate]
  by_cases same : other = block
  · subst same
    have inside : other < verdicts.size + (other + 1 - verdicts.size) := by omega
    simp [inside]
  · simp only [if_neg same, if_neg (Ne.symm same)]
    by_cases old : other < verdicts.size
    · simp [old]
    · have gone : verdicts[other]? = none := by simp; omega
      simp only [if_neg old, gone]
      split <;> rfl

end Verdicts

namespace Session

variable (session : Session)

theorem table_modifyTable {table : Nat} (made : table < session.tables.size)
    (change : CacheTable → CacheTable) (other : Nat) :
    (session.modifyTable table change).table other =
      if other = table then change (session.table table) else session.table other := by
  simp only [Session.table, modifyTable, Array.getD_eq_getD_getElem?, Array.getElem?_modify]
  by_cases same : other = table
  · subst same; simp [made]
  · simp [same, Ne.symm same]

theorem verdictsOf_record {cell : Nat} (made : cell < session.verdicts.size) (block : Nat)
    (new : Validity) (other : Nat) :
    (session.record cell block new).verdictsOf other =
      if other = cell then (session.verdictsOf cell).record block new else session.verdictsOf other := by
  simp only [Session.record, verdictsOf, Array.getD_eq_getD_getElem?, Array.getElem?_modify]
  by_cases same : other = cell
  · subst same; simp [made]
  · simp [same, Ne.symm same]

end Session

/-! ## Nodes -/

/-- A table as the rules of layout have it. -/
def BucketTree.WellLaid {E : Type} [BucketEntry E] (tree : BucketTree E) : Prop :=
  tree.checked = .ok tree

/-- A cipher that can be put on a storage. -/
def StorageCipher.WellMade : StorageCipher → Prop
  | ctr .. | ecb .. => True
  | generations _ _ _ table => table.WellLaid
  | xts _ sectorSize _ => sectorSize ≠ 0

/-- Over a storage of `size` bytes the positions and sector numbers of a cipher have no more than 64 bits. -/
def StorageCipher.Fits (cipher : StorageCipher) (size : Nat) : Prop :=
  match cipher with
  | ctr .. | ecb .. => True
  | generations _ _ start _ => start + size ≤ UInt64.size
  | xts _ sectorSize first => first + size / sectorSize ≤ UInt64.size

/-- Sectors that are counted from zero are no more than the bytes that they hold. -/
theorem StorageCipher.xts_fits (key : Aes.XtsKey) (sectorSize : Nat) {size : Nat} (short : size ≤ UInt64.size) :
    (xts key sectorSize 0).Fits size := by
  show 0 + size / sectorSize ≤ UInt64.size
  rw [Nat.zero_add]
  exact Nat.le_trans (Nat.div_le_self size sectorSize) short

namespace Storage

/-- The nodes that a node is built on. -/
def children : Storage → List Storage
  | memory _ | stream _ => []
  | slice parent _ _ => [parent]
  | cache _ inner _ _ => [inner]
  | decrypt inner _ => [inner]
  | concat segments => segments
  | indirect base patch _ => [base, patch]
  | verified _ _ data hashes => [data, hashes]

/-- The number of the table of a cache. -/
def table? : Storage → Option Nat
  | cache table _ _ _ => some table
  | _ => none

/-- The number of the verdicts of a verified node. -/
def cell? : Storage → Option Nat
  | verified cell _ _ _ => some cell
  | _ => none

/-- The rules under which a node is made. Nothing is longer than a 64-bit number can say. -/
def WellMade : Storage → Prop
  | memory bytes => bytes.size < UInt64.size
  | stream source => source.size < UInt64.size
  | slice parent start length => start + length ≤ parent.size
  | cache _ _ blockSize _ => 0 < blockSize
  | decrypt _ cipher => cipher.WellMade
  | concat segments => sizes segments < UInt64.size
  | indirect _ _ table => table.WellLaid ∧ table.size < UInt64.size
  | verified _ check data hashes => 0 < check.blockSize ∧
      (data.size + (check.blockSize - 1)) / check.blockSize * Sha256.size ≤ hashes.size

mutual

/-- All ciphers of a node and of those below fit. -/
def Fits : Storage → Prop
  | memory _ | stream _ => True
  | slice parent _ _ => parent.Fits
  | cache _ inner _ _ => inner.Fits
  | decrypt inner cipher => cipher.Fits inner.size ∧ inner.Fits
  | concat segments => allFit segments
  | indirect base patch _ => base.Fits ∧ patch.Fits
  | verified _ _ data hashes => data.Fits ∧ hashes.Fits

/-- All ciphers of several storages fit. -/
def allFit : List Storage → Prop
  | [] => True
  | segment :: rest => segment.Fits ∧ allFit rest

end

theorem allFit_iff {segments : List Storage} : allFit segments ↔ ∀ segment ∈ segments, segment.Fits := by
  induction segments with
  | nil => simp [allFit]
  | cons segment rest inductionHypothesis => rw [allFit, inductionHypothesis, List.forall_mem_cons]

/-- A window reads what it was made from. -/
theorem fits_window {parent node : Storage} {offset length : Nat} (made : parent.window offset length = .ok node) :
    node.Fits ↔ parent.Fits := by
  simp only [window] at made
  split at made
  · cases made
  · split at made
    all_goals
      cases made
      simp only [Fits]

end Storage

/-! ## Graphs -/

open Storage (cache verified sizes children readSegments segmentsOutcome)

/-- Nodes over nodes of the same list. Two caches with one table are the same node, and so are two
    verified nodes with one list of verdicts. -/
structure Coherent (nodes : List Storage) : Prop where
  closed : ∀ node ∈ nodes, ∀ child ∈ node.children, child ∈ nodes
  wellMade : ∀ node ∈ nodes, node.WellMade
  oneTable : ∀ node ∈ nodes, ∀ other ∈ nodes, ∀ table,
    node.table? = some table → other.table? = some table → node = other
  oneCell : ∀ node ∈ nodes, ∀ other ∈ nodes, ∀ cell,
    node.cell? = some cell → other.cell? = some cell → node = other

/-- The session was made with the nodes, and holds only blocks and verdicts as reads give them. -/
structure Remembers (nodes : List Storage) (session : Session) : Prop where
  tableMade : ∀ node ∈ nodes, ∀ table, node.table? = some table → table < session.tables.size
  cellMade : ∀ node ∈ nodes, ∀ cell, node.cell? = some cell → cell < session.verdicts.size
  blocks : ∀ {table inner blockSize capacity}, cache table inner blockSize capacity ∈ nodes →
    ∀ entry ∈ session.table table, inner.outcome (entry.1 * blockSize)
      (blockLength inner.size blockSize entry.1) = .ok entry.2
  verdicts : ∀ {cell check data hashes}, verified cell check data hashes ∈ nodes →
    ∀ block, (session.verdictsOf cell).verdict block ≠ .unchecked →
      ∃ bytes, check.judge data.size data.outcome hashes.outcome block =
        .ok (bytes, (session.verdictsOf cell).verdict block)

namespace Remembers

variable {nodes : List Storage} {session : Session}

theorem mono {fewer : List Storage} (remembers : Remembers nodes session)
    (subset : ∀ node ∈ fewer, node ∈ nodes) : Remembers fewer session where
  tableMade node member := remembers.tableMade node (subset node member)
  cellMade node member := remembers.cellMade node (subset node member)
  blocks member := remembers.blocks (subset _ member)
  verdicts member := remembers.verdicts (subset _ member)

theorem logged (remembers : Remembers nodes session) (warning : Warning) :
    Remembers nodes (session.logged warning) :=
  ⟨remembers.tableMade, remembers.cellMade, remembers.blocks, remembers.verdicts⟩

/-- A table may change as long as its blocks are those that reads give. -/
theorem modifyTable (remembers : Remembers nodes session) (graph : Coherent nodes)
    {table : Nat} {inner : Storage} {blockSize capacity : Nat}
    (member : cache table inner blockSize capacity ∈ nodes) (change : CacheTable → CacheTable)
    (sound : ∀ entry ∈ change (session.table table),
      inner.outcome (entry.1 * blockSize) (blockLength inner.size blockSize entry.1) = .ok entry.2) :
    Remembers nodes (session.modifyTable table change) where
  tableMade node nodeMember number named := by
    simpa [Session.modifyTable] using remembers.tableMade node nodeMember number named
  cellMade := remembers.cellMade
  blocks := by
    intro other otherInner otherSize otherCapacity otherMember entry entryMember
    have made := remembers.tableMade _ member _ rfl
    rw [Session.table_modifyTable session made] at entryMember
    by_cases same : other = table
    -- a node with this table is the node that was given
    · subst same
      cases graph.oneTable _ member _ otherMember _ rfl rfl
      exact sound entry (by simpa using entryMember)
    · rw [if_neg same] at entryMember
      exact remembers.blocks otherMember entry entryMember
  verdicts := remembers.verdicts

/-- A check of a block gives the recorded verdict again. -/
theorem record_verdict (remembers : Remembers nodes session)
    {cell block : Nat} {check : BlockCheck} {data hashes : Storage} {bytes : Bytes} {new : Validity}
    (member : verified cell check data hashes ∈ nodes)
    (judged : check.judge data.size data.outcome hashes.outcome block = .ok (bytes, new)) :
    ((session.verdictsOf cell).verdict block).record new = new := by
  by_cases known : (session.verdictsOf cell).verdict block = .unchecked
  · simp [known, Validity.record]
  -- an invalid verdict stays, but then the check gives it again
  · obtain ⟨old, again⟩ := remembers.verdicts member block known
    rw [judged, Except.ok.injEq, Prod.mk.injEq] at again
    rw [← again.2, Validity.record]
    split
    · exact Eq.symm ‹new = .invalid›
    · rfl

/-- A verdict may be recorded if it is the one that a check gives. -/
theorem record (remembers : Remembers nodes session) (graph : Coherent nodes)
    {cell block : Nat} {check : BlockCheck} {data hashes : Storage} {bytes : Bytes} {new : Validity}
    (member : verified cell check data hashes ∈ nodes)
    (judged : check.judge data.size data.outcome hashes.outcome block = .ok (bytes, new)) :
    Remembers nodes (session.record cell block new) where
  tableMade := remembers.tableMade
  cellMade node nodeMember number named := by
    simpa [Session.record] using remembers.cellMade node nodeMember number named
  blocks := remembers.blocks
  verdicts := by
    intro other otherCheck otherData otherHashes otherMember otherBlock recorded
    have made := remembers.cellMade _ member _ rfl
    rw [Session.verdictsOf_record session made] at recorded ⊢
    by_cases same : other = cell
    -- a node with these verdicts is the node that was given
    · subst same
      cases graph.oneCell _ member _ otherMember _ rfl rfl
      simp only [if_true, Verdicts.verdict_record] at recorded ⊢
      by_cases sameBlock : otherBlock = block
      · subst sameBlock
        exact ⟨bytes, by simpa [remembers.record_verdict member judged] using judged⟩
      · rw [if_neg sameBlock] at recorded ⊢
        exact remembers.verdicts member otherBlock recorded
    · rw [if_neg same] at recorded ⊢
      exact remembers.verdicts otherMember otherBlock recorded

theorem verdict_recorded (remembers : Remembers nodes session)
    {cell block : Nat} {check : BlockCheck} {data hashes : Storage} {bytes : Bytes} {new : Validity}
    (member : verified cell check data hashes ∈ nodes)
    (judged : check.judge data.size data.outcome hashes.outcome block = .ok (bytes, new)) :
    ((session.record cell block new).verdictsOf cell).verdict block = new := by
  rw [Session.verdictsOf_record session (remembers.cellMade _ member _ rfl), if_pos rfl,
    Verdicts.verdict_record, if_pos rfl, remembers.record_verdict member judged]

/-- A block that has a verdict would get the same one again. -/
theorem judge_of_known (remembers : Remembers nodes session) {cell block : Nat} {check : BlockCheck}
    {data hashes : Storage} {bytes : Bytes} (member : verified cell check data hashes ∈ nodes)
    (known : (session.verdictsOf cell).verdict block ≠ .unchecked)
    (gives : data.outcome (block * check.blockSize) (blockLength data.size check.blockSize block) = .ok bytes) :
    check.judge data.size data.outcome hashes.outcome block =
      .ok (bytes, (session.verdictsOf cell).verdict block) := by
  obtain ⟨old, judged⟩ := remembers.verdicts member block known
  obtain ⟨_, read, rest⟩ := ok_of_bind judged
  obtain ⟨_, _, same⟩ := ok_of_bind rest
  cases gives.symm.trans read
  rw [judged, (Prod.mk.inj (Except.ok.inj same)).1]

end Remembers

/-! ## Reads

Each rule of serving a range is followed in the session and outside it, given that this holds of the
nodes below. -/

variable {nodes : List Storage} {kept : Session → Prop}

theorem Answers.composes (kept : Session → Prop) : Composes (m := SessionM) (n := Except Error) (Answers kept) where
  pure := .pure
  throw := .throw
  bind first rest := first.bind fun value _ => rest value

theorem cachedBlock_answers (graph : Coherent nodes) {table : Nat} {inner : Storage}
    {blockSize capacity : Nat} (member : cache table inner blockSize capacity ∈ nodes)
    (below : ∀ o n, Answers (Remembers nodes) (inner.read o n) (inner.outcome o n)) (block : Nat) :
    Answers (Remembers nodes)
      (cachedBlock table blockSize capacity inner.size (fun o n => inner.read o n) block)
      (inner.outcome (block * blockSize) (blockLength inner.size blockSize block)) := by
  intro session remembers
  simp only [cachedBlock]
  rw [SessionM.result_bind_ok (SessionM.result_get session),
    SessionM.after_bind_ok (SessionM.result_get session)]
  simp only [SessionM.after_get]
  -- a hit gives what a read below gave before; a miss asks below and remembers
  cases held : (session.table table).find? block with
  | some bytes =>
    have same := remembers.blocks member _ (CacheTable.mem_of_find? held)
    refine ⟨same.symm, remembers.modifyTable graph member _ fun entry entryMember => ?_⟩
    exact remembers.blocks member entry (CacheTable.mem_of_mem_promote entryMember)
  | none =>
    rw [← bind_pure (inner.outcome (block * blockSize) _)]
    apply Answers.bind (below _ _) _ session remembers
    intro bytes gives session remembers
    refine ⟨rfl, remembers.modifyTable graph member _ fun entry entryMember => ?_⟩
    cases CacheTable.mem_of_mem_insert entryMember with
    | inl new => rw [new]; exact gives
    | inr old => exact remembers.blocks member entry old

theorem readCached_answers (graph : Coherent nodes) {table : Nat} {inner : Storage}
    {blockSize capacity : Nat} (member : cache table inner blockSize capacity ∈ nodes)
    (below : ∀ o n, Answers (Remembers nodes) (inner.read o n) (inner.outcome o n))
    (offset length : Nat) :
    Answers (Remembers nodes)
      (readCached table blockSize capacity inner.size (fun o n => inner.read o n) offset length)
      (cachedOutcome blockSize inner.size (fun o n => inner.outcome o n) offset length) :=
  Answers.bind (Answers.mapM fun block _ => cachedBlock_answers graph member below block)
    fun _ _ => .pure _

theorem checkedBlock_answers (graph : Coherent nodes) {cell : Nat} {check : BlockCheck}
    {data hashes : Storage} (member : verified cell check data hashes ∈ nodes)
    (fromData : ∀ o n, Answers (Remembers nodes) (data.read o n) (data.outcome o n))
    (fromHashes : ∀ o n, Answers (Remembers nodes) (hashes.read o n) (hashes.outcome o n))
    (block : Nat) :
    Answers (Remembers nodes)
      (checkedBlock cell check data.size (fun o n => data.read o n) (fun o n => hashes.read o n) block)
      (check.judge data.size data.outcome hashes.outcome block) := by
  apply Answers.bind (fromData _ _)
  intro bytes gives session remembers
  rw [SessionM.result_bind_ok (SessionM.result_get session),
    SessionM.after_bind_ok (SessionM.result_get session)]
  simp only [SessionM.after_get]
  by_cases known : (session.verdictsOf cell).verdict block = .unchecked
  -- the hash is fetched, and the verdict that is recorded is the one that was just found
  · simp only [known, ne_eq, not_true_eq_false, if_false]
    apply Answers.bind (fromHashes _ _) _ session remembers
    intro hash found session remembers
    have judged : check.judge data.size data.outcome hashes.outcome block =
        .ok (bytes, check.verdict bytes hash) := by
      simp [BlockCheck.judge, gives, found, bind, Except.bind, pure, Except.pure]
    refine ⟨?_, remembers.record graph member judged⟩
    have verdict := remembers.verdict_recorded member judged
    exact congrArg (fun verdict => Except.ok (bytes, verdict)) verdict
  -- the hash is not fetched again: it was there when the verdict was recorded
  · have judged := remembers.judge_of_known member known gives
    rw [BlockCheck.judge, gives, ok_bind] at judged
    simp only [ne_eq, known, not_false_eq_true, if_true]
    exact ⟨judged.symm, remembers⟩

/-- A read follows the policy: the failing one stops it, the warning one writes a warning down. -/
theorem enforce_answers (check : BlockCheck) (block : Nat) (verdict : Validity) :
    Answers (Remembers nodes) (check.enforce block verdict) (check.refuse block verdict) := by
  simp only [BlockCheck.enforce, BlockCheck.refuse]
  by_cases invalid : verdict = .invalid
  · cases policy : check.policy with
    | fail => simp only [invalid, and_self, if_true]; exact .throw _
    | warn =>
      simp only [invalid, if_true, reduceCtorEq, and_false, if_false]
      exact fun session remembers => ⟨rfl, remembers.logged _⟩
    | off | ignore =>
      simp only [invalid, if_true, reduceCtorEq, and_false, if_false]
      exact .pure ()
  · simp only [invalid, false_and, if_false]
    exact .pure ()

theorem readVerified_answers (graph : Coherent nodes) {cell : Nat} {check : BlockCheck}
    {data hashes : Storage} (member : verified cell check data hashes ∈ nodes)
    (fromData : ∀ o n, Answers (Remembers nodes) (data.read o n) (data.outcome o n))
    (fromHashes : ∀ o n, Answers (Remembers nodes) (hashes.read o n) (hashes.outcome o n))
    (offset length : Nat) :
    Answers (Remembers nodes)
      (readVerified cell check data.size (fun o n => data.read o n) (fun o n => hashes.read o n)
        offset length)
      (verifiedOutcome check data.size (fun o n => data.outcome o n) (fun o n => hashes.outcome o n)
        offset length) := by
  simp only [readVerified, verifiedOutcome]
  split
  · exact fromData _ _
  · apply Answers.bind
    · apply Answers.mapM
      intro block _
      apply Answers.bind (checkedBlock_answers graph member fromData fromHashes block)
      intro judged _
      exact Answers.bind (enforce_answers check block judged.2) fun _ _ => .pure _
    · exact fun _ _ => .pure _

mutual

/-- In a session made with a graph, a read of any node gives its outcome and leaves such a session. -/
theorem Storage.read_answers (graph : Coherent nodes) : ∀ node ∈ nodes, ∀ offset length,
    Answers (Remembers nodes) (node.read offset length) (node.outcome offset length)
  | .memory bytes, _, offset, length => by
    simp only [Storage.read, Storage.outcome]
    exact (Answers.composes _).ranged (.pure _)
  | .stream source, _, offset, length => by
    simp only [Storage.read, Storage.outcome]
    exact (Answers.composes _).ranged (.pure _)
  | .slice parent start size, member, offset, length => by
    have below := parent.read_answers graph (graph.closed _ member _ (by simp [children]))
    simp only [Storage.read, Storage.outcome]
    exact (Answers.composes _).ranged (below _ _)
  | .cache table inner blockSize capacity, member, offset, length => by
    have below := inner.read_answers graph (graph.closed _ member _ (by simp [children]))
    simp only [Storage.read, Storage.outcome]
    exact (Answers.composes _).ranged (readCached_answers graph member below offset length)
  | .decrypt inner cipher, member, offset, length => by
    have below := inner.read_answers graph (graph.closed _ member _ (by simp [children]))
    simp only [Storage.read, Storage.outcome]
    exact (Answers.composes _).ranged ((Answers.composes _).readDecrypted below cipher _ offset length)
  | .concat segments, member, offset, length => by
    simp only [Storage.read, Storage.outcome]
    exact (Answers.composes _).ranged (readSegments_answers graph segments (graph.closed _ member) offset length)
  | .indirect base patch table, member, offset, length => by
    have fromBase := base.read_answers graph (graph.closed _ member _ (by simp [children]))
    have fromPatch := patch.read_answers graph (graph.closed _ member _ (by simp [children]))
    simp only [Storage.read, Storage.outcome]
    exact (Answers.composes _).ranged ((Answers.composes _).readRelocated table fromBase fromPatch offset length)
  | .verified cell check data hashes, member, offset, length => by
    have fromData := data.read_answers graph (graph.closed _ member _ (by simp [children]))
    have fromHashes := hashes.read_answers graph (graph.closed _ member _ (by simp [children]))
    simp only [Storage.read, Storage.outcome]
    exact (Answers.composes _).ranged (readVerified_answers graph member fromData fromHashes offset length)

theorem readSegments_answers (graph : Coherent nodes) : ∀ segments : List Storage,
    (∀ segment ∈ segments, segment ∈ nodes) → ∀ offset length,
    Answers (Remembers nodes) (readSegments segments offset length)
      (segmentsOutcome segments offset length)
  | [], _, offset, length => by
    simp only [readSegments, segmentsOutcome]
    exact .pure _
  | segment :: rest, members, offset, length => by
    have first := segment.read_answers graph (members segment (by simp))
    have others := readSegments_answers graph rest fun other member => members other (by simp [member])
    simp only [readSegments, segmentsOutcome]
    split
    · exact .pure _
    · split
      · exact others _ _
      · exact Answers.bind (first _ _) fun _ _ => Answers.bind (others _ _) fun _ _ => .pure _

end

/-! ## Validation -/

theorem HashLevel.validate_answers (graph : Coherent nodes) {level : HashLevel}
    (member : level.storage ∈ nodes) :
    Answers (Remembers nodes) level.validate level.validation := by
  have fromData := level.data.read_answers graph (graph.closed _ member _ (by simp [storage, children]))
  have fromHashes :=
    level.hashes.read_answers graph (graph.closed _ member _ (by simp [storage, children]))
  apply Answers.bind
  · apply Answers.mapM
    intro block _
    exact Answers.bind (checkedBlock_answers graph member fromData fromHashes block) fun _ _ => .pure _
  · exact fun _ _ => .pure _

theorem HashTree.validate_answers (graph : Coherent nodes) {tree : HashTree}
    (members : ∀ level ∈ tree.levels, level.storage ∈ nodes) :
    Answers (Remembers nodes) tree.validate tree.validation :=
  Answers.bind (Answers.mapM fun level member => level.validate_answers graph (members level member))
    fun _ _ => .pure _

end SealedContent
