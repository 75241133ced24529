import SealedContent.Proofs.Concurrency.Pool
import SealedContent.Proofs.Concurrency.Threads
import SealedContent.Proofs.Storage.Recency

/-! # What readers do to a shared session

`Change nodes` lists what a reader of some nodes does in one turn. A session that remembers only what reads give goes on
to do so, whoever has the turn, and so every read comes to its `Storage.outcome`: `Storage.turns_settles`. Tables stay
within their bounds (`Changes.tablesFit`) and verdicts stay what they are (`Changes.verdict`).
-/

namespace SealedContent

open Relation (ReflTransGen)
open Storage (cache verified children sizes segmentsTurns segmentsOutcome)

/-! ## Changes -/

/-- What a reader of some nodes does to a session in one turn. Only what was read from below is put into a table, and
    only the verdict on what was read is recorded. -/
inductive Change (nodes : List Storage) (session : Session) : Session → Prop where
  | look : Change nodes session session
  | use {table inner blockSize capacity} (member : cache table inner blockSize capacity ∈ nodes) (block : Nat) :
      Change nodes session (session.modifyTable table (·.promote block))
  | fill {table inner blockSize capacity} (member : cache table inner blockSize capacity ∈ nodes) {block : Nat}
      {bytes : Bytes} (gives : inner.outcome (block * blockSize) (blockLength inner.size blockSize block) = .ok bytes) :
      Change nodes session (session.modifyTable table (·.insert capacity block bytes))
  | decide {cell check data hashes} (member : verified cell check data hashes ∈ nodes) {block : Nat} {bytes : Bytes}
      {new : Validity} (judged : check.judge data.size data.outcome hashes.outcome block = .ok (bytes, new)) :
      Change nodes session (session.record cell block new)
  | warn (warning : Warning) : Change nodes session (session.logged warning)

variable {nodes : List Storage} {session later : Session}

theorem Change.remembers (graph : Coherent nodes) (session later : Session) (change : Change nodes session later)
    (remembers : Remembers nodes session) : Remembers nodes later := by
  cases change with
  | look => exact remembers
  | use member block =>
    refine remembers.modifyTable graph member _ fun entry entryMember => ?_
    exact remembers.blocks member entry (CacheTable.mem_of_mem_promote entryMember)
  | fill member gives =>
    refine remembers.modifyTable graph member _ fun entry entryMember => ?_
    cases CacheTable.mem_of_mem_insert entryMember with
    | inl new => rw [new]; exact gives
    | inr old => exact remembers.blocks member entry old
  | decide member judged => exact remembers.record graph member judged
  | warn warning => exact remembers.logged warning

/-! ### Tables -/

theorem nodup_useBlock {order : List Nat} (distinct : order.Nodup) (capacity block : Nat) :
    (useBlock capacity order block).Nodup := by
  refine List.Nodup.sublist (List.take_sublist _ _) (List.nodup_cons.mpr ⟨?_, distinct.filter _⟩)
  simp

/-- No two entries for one block, and no more of them than the cache holds. -/
structure CacheTable.Fits (table : CacheTable) (capacity : Nat) : Prop where
  distinct : table.indices.Nodup
  few : table.length ≤ capacity

namespace CacheTable.Fits

variable {table : CacheTable} {capacity : Nat}

theorem of_useBlock {used : CacheTable} {block : Nat} (fits : table.Fits capacity)
    (same : used.indices = useBlock capacity table.indices block) : used.Fits capacity where
  distinct := same ▸ nodup_useBlock fits.distinct capacity block
  few := by
    have few := length_useBlock_le capacity table.indices block
    rwa [← same, indices, List.length_map] at few

theorem insert (fits : table.Fits capacity) (block : Nat) (bytes : Bytes) :
    (table.insert capacity block bytes).Fits capacity := fits.of_useBlock (indices_insert table capacity block bytes)

theorem promote (fits : table.Fits capacity) (block : Nat) : (table.promote block).Fits capacity := by
  cases held : table.find? block with
  | some bytes => exact fits.of_useBlock (indices_promote fits.few held)
  | none =>
    rw [CacheTable.promote, held]
    exact fits

end CacheTable.Fits

/-- The tables of all caches are within their bounds. -/
def TablesFit (nodes : List Storage) (session : Session) : Prop :=
  ∀ {table inner blockSize capacity}, cache table inner blockSize capacity ∈ nodes →
    (session.table table).Fits capacity

/-- Where the table of one cache is changed, those of the others are not. -/
theorem TablesFit.modifyTable (fit : TablesFit nodes session) (graph : Coherent nodes)
    (remembers : Remembers nodes session) {table : Nat} {inner : Storage} {blockSize capacity : Nat}
    (member : cache table inner blockSize capacity ∈ nodes) {change : CacheTable → CacheTable}
    (fits : (change (session.table table)).Fits capacity) : TablesFit nodes (session.modifyTable table change) := by
  intro other _ _ _ otherMember
  rw [Session.table_modifyTable session (remembers.tableMade _ member _ rfl)]
  split
  · next same =>
    subst same
    cases graph.oneTable _ member _ otherMember _ rfl rfl
    exact fits
  · exact fit otherMember

theorem Change.tablesFit (graph : Coherent nodes) (remembers : Remembers nodes session)
    (change : Change nodes session later) (fit : TablesFit nodes session) : TablesFit nodes later := by
  cases change with
  | look => exact fit
  | use member block => exact fit.modifyTable graph remembers member ((fit member).promote block)
  | fill member gives => exact fit.modifyTable graph remembers member ((fit member).insert _ _)
  | decide member judged => exact fit
  | warn warning => exact fit

/-! ### Verdicts -/

/-- Another check of a block that has a verdict finds the same one. -/
theorem Change.verdict (remembers : Remembers nodes session) (change : Change nodes session later) {cell block : Nat}
    (recorded : (session.verdictsOf cell).verdict block ≠ .unchecked) :
    (later.verdictsOf cell).verdict block = (session.verdictsOf cell).verdict block := by
  cases change with
  | look | use | fill | warn => rfl
  | @decide other _ _ _ member otherBlock _ new judged =>
    rw [Session.verdictsOf_record session (remembers.cellMade _ member _ rfl)]
    split
    · next same =>
      subst same
      rw [Verdicts.verdict_record]
      split
      -- both verdicts are on the same bytes and the same hash
      · next sameBlock =>
        subst sameBlock
        rw [remembers.record_verdict member judged]
        obtain ⟨_, before⟩ := remembers.verdicts member block recorded
        cases judged.symm.trans before
        rfl
      · rfl
    · rfl

/-! ### Any number of changes -/

/-- Any number of turns of readers of some nodes. -/
abbrev Changes (nodes : List Storage) : Session → Session → Prop := ReflTransGen (Change nodes)

namespace Changes

theorem remembers (changes : Changes nodes session later) (graph : Coherent nodes)
    (remembers : Remembers nodes session) : Remembers nodes later := by
  induction changes with
  | refl => exact remembers
  | tail _ change inductionHypothesis => exact change.remembers graph _ _ inductionHypothesis

theorem tablesFit (changes : Changes nodes session later) (graph : Coherent nodes)
    (remembers : Remembers nodes session) (fit : TablesFit nodes session) : TablesFit nodes later := by
  induction changes with
  | refl => exact fit
  | tail before change inductionHypothesis =>
    exact change.tablesFit graph (Changes.remembers before graph remembers) inductionHypothesis

theorem verdict (changes : Changes nodes session later) (graph : Coherent nodes)
    (remembers : Remembers nodes session) {cell block : Nat}
    (recorded : (session.verdictsOf cell).verdict block ≠ .unchecked) :
    (later.verdictsOf cell).verdict block = (session.verdictsOf cell).verdict block := by
  induction changes with
  | refl => rfl
  | tail before change inductionHypothesis =>
    rw [← inductionHypothesis] at recorded ⊢
    exact change.verdict (Changes.remembers before graph remembers) recorded

end Changes

/-! ## Reads settle -/

namespace ThreadM

variable {α β : Type}

/-- A thread comes to the outcome, whatever other readers of the nodes do between its turns. -/
abbrev Settles (nodes : List Storage) (thread : ThreadM α) (outcome : Except Error α) : Prop :=
  thread.run.Settles (Remembers nodes) (Change nodes) outcome

namespace Settles

theorem pure (value : α) : Settles nodes (Pure.pure value) (.ok value) := rfl

theorem bind {thread : ThreadM α} {outcome : Except Error α} {next : α → ThreadM β}
    {nextOutcome : α → Except Error β} (first : Settles nodes thread outcome)
    (rest : ∀ value, outcome = .ok value → Settles nodes (next value) (nextOutcome value)) :
    Settles nodes (thread >>= next) (outcome >>= nextOutcome) := by
  refine Turns.Settles.bind first ?_
  cases outcome with
  | ok value => exact rest value rfl
  | error error => rfl

theorem composes (nodes : List Storage) : Composes (m := ThreadM) (n := Except Error) (Settles nodes) where
  pure _ := rfl
  throw _ := rfl
  bind first rest := first.bind fun value _ => rest value

/-- A turn, and what comes after it. -/
theorem locked {change : Session → Session} {seen : Session → α} {after : α → ThreadM β} {outcome : Except Error β}
    (each : ∀ session, Remembers nodes session →
      Change nodes session (change session) ∧ Settles nodes (after (seen session)) outcome) :
    Settles nodes (ThreadM.locked change seen >>= after) outcome := each

end Settles

variable {table blockSize capacity cell : Nat} {check : BlockCheck} {inner data hashes : Storage}

theorem cachedBlock_settles (member : cache table inner blockSize capacity ∈ nodes)
    (below : ∀ o n, Settles nodes (inner.turns o n) (inner.outcome o n)) (block : Nat) :
    Settles nodes (cachedBlock table blockSize capacity inner.size (fun o n => inner.turns o n) block)
      (inner.outcome (block * blockSize) (blockLength inner.size blockSize block)) := by
  refine .locked fun session remembers => ⟨.use member block, ?_⟩
  cases held : (session.table table).find? block with
  | some bytes => exact (remembers.blocks member _ (CacheTable.mem_of_find? held)).symm
  -- another reader may have filled the block in the meantime, with the same bytes
  | none =>
    rw [← bind_pure (inner.outcome (block * blockSize) _)]
    exact (below _ _).bind fun bytes gives => .locked fun _ _ => ⟨.fill member gives, .pure bytes⟩

theorem readCached_settles (member : cache table inner blockSize capacity ∈ nodes)
    (below : ∀ o n, Settles nodes (inner.turns o n) (inner.outcome o n)) (offset length : Nat) :
    Settles nodes (readCached table blockSize capacity inner.size (fun o n => inner.turns o n) offset length)
      (cachedOutcome blockSize inner.size (fun o n => inner.outcome o n) offset length) :=
  Settles.bind ((Settles.composes nodes).mapM (cachedBlock_settles member below) _) fun _ _ => .pure _

theorem checkedBlock_settles (member : verified cell check data hashes ∈ nodes)
    (fromData : ∀ o n, Settles nodes (data.turns o n) (data.outcome o n))
    (fromHashes : ∀ o n, Settles nodes (hashes.turns o n) (hashes.outcome o n)) (block : Nat) :
    Settles nodes
      (checkedBlock cell check data.size (fun o n => data.turns o n) (fun o n => hashes.turns o n) block)
      (check.judge data.size data.outcome hashes.outcome block) := by
  refine (fromData _ _).bind fun bytes gives => .locked fun session remembers => ⟨.look, ?_⟩
  by_cases known : (session.verdictsOf cell).verdict block = .unchecked
  · simp only [known, ne_eq, not_true_eq_false, if_false]
    refine (fromHashes _ _).bind fun hash found => .locked fun session remembers => ?_
    have judged : check.judge data.size data.outcome hashes.outcome block =
        .ok (bytes, check.verdict bytes hash) := by
      rw [BlockCheck.judge, gives, ok_bind, found]
      rfl
    refine ⟨.decide member judged, ?_⟩
    rw [remembers.verdict_recorded member judged]
    exact .pure _
  · have judged := remembers.judge_of_known member known gives
    rw [BlockCheck.judge, gives, ok_bind] at judged
    simp only [ne_eq, known, not_false_eq_true, if_true]
    rw [judged]
    exact .pure _

theorem enforce_settles (check : BlockCheck) (block : Nat) (verdict : Validity) :
    Settles nodes (enforce check block verdict) (check.refuse block verdict) := by
  simp only [enforce, BlockCheck.refuse]
  by_cases invalid : verdict = .invalid
  · cases policy : check.policy with
    | fail => simp only [invalid, and_self, if_true]; rfl
    | warn =>
      simp only [invalid, if_true, reduceCtorEq, and_false, if_false]
      exact fun session _ => ⟨.warn _, rfl⟩
    | off | ignore =>
      simp only [invalid, if_true, reduceCtorEq, and_false, if_false]
      rfl
  · simp only [invalid, false_and, if_false]
    rfl

theorem readVerified_settles (member : verified cell check data hashes ∈ nodes)
    (fromData : ∀ o n, Settles nodes (data.turns o n) (data.outcome o n))
    (fromHashes : ∀ o n, Settles nodes (hashes.turns o n) (hashes.outcome o n)) (offset length : Nat) :
    Settles nodes
      (readVerified cell check data.size (fun o n => data.turns o n) (fun o n => hashes.turns o n) offset length)
      (verifiedOutcome check data.size (fun o n => data.outcome o n) (fun o n => hashes.outcome o n)
        offset length) := by
  simp only [readVerified, verifiedOutcome]
  split
  · exact fromData _ _
  · refine Settles.bind ((Settles.composes nodes).mapM (fun block => ?_) _) fun _ _ => .pure _
    refine (checkedBlock_settles member fromData fromHashes block).bind fun judged _ => ?_
    exact (enforce_settles check block judged.2).bind fun _ _ => .pure _

end ThreadM

namespace Storage

open ThreadM (Settles)

mutual

/-- Whatever other readers do, the read of a node comes to its outcome. -/
theorem turns_settles (graph : Coherent nodes) : ∀ node ∈ nodes, ∀ offset length,
    Settles nodes (node.turns offset length) (node.outcome offset length)
  | .memory bytes, _, offset, length => by
    simp only [turns, outcome]
    exact (Settles.composes nodes).ranged (.pure _)
  | .stream source, _, offset, length => by
    simp only [turns, outcome]
    exact (Settles.composes nodes).ranged (.pure _)
  | .slice parent start size, member, offset, length => by
    have below := parent.turns_settles graph (graph.closed _ member _ (by simp [children]))
    simp only [turns, outcome]
    exact (Settles.composes nodes).ranged (below _ _)
  | .cache table inner blockSize capacity, member, offset, length => by
    have below := inner.turns_settles graph (graph.closed _ member _ (by simp [children]))
    simp only [turns, outcome]
    exact (Settles.composes nodes).ranged (ThreadM.readCached_settles member below offset length)
  | .decrypt inner cipher, member, offset, length => by
    have below := inner.turns_settles graph (graph.closed _ member _ (by simp [children]))
    simp only [turns, outcome]
    exact (Settles.composes nodes).ranged ((Settles.composes nodes).readDecrypted below cipher _ _ _)
  | .concat segments, member, offset, length => by
    simp only [turns, outcome]
    exact (Settles.composes nodes).ranged (segmentsTurns_settles graph segments (graph.closed _ member) offset length)
  | .indirect base patch table, member, offset, length => by
    have fromBase := base.turns_settles graph (graph.closed _ member _ (by simp [children]))
    have fromPatch := patch.turns_settles graph (graph.closed _ member _ (by simp [children]))
    simp only [turns, outcome]
    exact (Settles.composes nodes).ranged ((Settles.composes nodes).readRelocated table fromBase fromPatch _ _)
  | .verified cell check data hashes, member, offset, length => by
    have fromData := data.turns_settles graph (graph.closed _ member _ (by simp [children]))
    have fromHashes := hashes.turns_settles graph (graph.closed _ member _ (by simp [children]))
    simp only [turns, outcome]
    exact (Settles.composes nodes).ranged (ThreadM.readVerified_settles member fromData fromHashes offset length)

theorem segmentsTurns_settles (graph : Coherent nodes) : ∀ segments : List Storage,
    (∀ segment ∈ segments, segment ∈ nodes) → ∀ offset length,
    Settles nodes (segmentsTurns segments offset length) (segmentsOutcome segments offset length)
  | [], _, offset, length => by
    simp only [segmentsTurns, segmentsOutcome]
    exact .pure _
  | segment :: rest, members, offset, length => by
    have first := segment.turns_settles graph (members segment (by simp))
    have others := segmentsTurns_settles graph rest fun other member => members other (by simp [member])
    simp only [segmentsTurns, segmentsOutcome]
    split
    · exact .pure _
    · split
      · exact others _ _
      · exact (first _ _).bind fun _ _ => (others _ _).bind fun _ _ => .pure _

end

end Storage

end SealedContent
