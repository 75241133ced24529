import SealedContent.Proofs.Concurrency.Sharing

/-! # Readers

A reader makes calls one after the other: for a block of a cache, for the check of a block, or for a range of a node
(`Access`). Any number of readers over the nodes of one workspace start as `Pool.ofReaders`. However their turns are
interleaved, tables and verdicts stay sound, and every reader is answered as if it were alone: `Pool.readers_agree`.
-/

namespace SealedContent

open Storage (cache verified)
open Workspace (StepOf Steps StepsOf)

/-! ## Calls -/

/-- One call of a reader. -/
inductive Access where
  | block (table : Nat) (inner : Storage) (blockSize capacity index : Nat)
  | check (level : HashLevel) (block : Nat)
  | read (node : Storage) (offset length : Nat)

/-- The bytes that a call gives, and the verdict on them if they were checked. -/
abbrev Answer := Except Error (Bytes × Option Validity)

namespace Access

/-- The node that is called. -/
def node : Access → Storage
  | block table inner blockSize capacity _ => cache table inner blockSize capacity
  | check level _ => level.storage
  | read node _ _ => node

/-- The call in a session of its own. -/
def perform : Access → SessionM (Bytes × Option Validity)
  | block table inner blockSize capacity index => do
    let bytes ← cachedBlock table blockSize capacity inner.size inner.read index
    return (bytes, none)
  | check level index => do
    let (bytes, verdict) ← level.checkBlock index
    return (bytes, some verdict)
  | read node offset length => do
    let bytes ← node.read offset length
    return (bytes, none)

/-- The call among others. -/
def turns : Access → ThreadM (Bytes × Option Validity)
  | block table inner blockSize capacity index => do
    let bytes ← ThreadM.cachedBlock table blockSize capacity inner.size inner.turns index
    return (bytes, none)
  | check level index => do
    let (bytes, verdict) ← level.checkTurns index
    return (bytes, some verdict)
  | read node offset length => do
    let bytes ← node.turns offset length
    return (bytes, none)

/-- What the call gives if nothing is remembered. -/
def outcome : Access → Answer
  | block _ inner blockSize _ index => do
    let bytes ← inner.outcome (index * blockSize) (blockLength inner.size blockSize index)
    return (bytes, none)
  | check level index => do
    let (bytes, verdict) ← level.check.judge level.data.size level.data.outcome level.hashes.outcome index
    return (bytes, some verdict)
  | read node offset length => do
    let bytes ← node.outcome offset length
    return (bytes, none)

theorem turns_does (call : Access) : call.turns.Does call.perform := by
  cases call with
  | block table inner blockSize capacity index =>
    exact ThreadM.does_composes.bind (ThreadM.cachedBlock_does inner.turns_does _ _ _ _ _) fun _ => rfl
  | check level index => exact ThreadM.does_composes.bind (level.checkTurns_does index) fun _ => rfl
  | read node offset length => exact ThreadM.does_composes.bind (node.turns_does offset length) fun _ => rfl

theorem turns_settles {nodes : List Storage} (graph : Coherent nodes) {call : Access} (member : call.node ∈ nodes) :
    ThreadM.Settles nodes call.turns call.outcome := by
  have below : ∀ child ∈ call.node.children, ∀ o n, ThreadM.Settles nodes (child.turns o n) (child.outcome o n) :=
    fun child among => child.turns_settles graph (graph.closed _ member child among)
  cases call with
  | block table inner blockSize capacity index =>
    have settles := ThreadM.cachedBlock_settles member (below inner (by simp [node, Storage.children])) index
    exact settles.bind fun _ _ => .pure _
  | check level index =>
    have settles := ThreadM.checkedBlock_settles member
      (below level.data (by simp [node, HashLevel.storage, Storage.children]))
      (below level.hashes (by simp [node, HashLevel.storage, Storage.children])) index
    exact settles.bind fun _ _ => .pure _
  | read node offset length => exact (node.turns_settles graph member offset length).bind fun _ _ => .pure _

/-- Calls one after the other in a session of their own, each of them whatever the ones before have given. -/
def performAll (calls : List Access) : StateM Session (List Answer) := calls.mapM fun call => call.perform.run

/-- Calls one after the other among those of others. -/
def turnsOfAll (calls : List Access) : Turns (List Answer) := calls.mapM fun call => call.turns.run

theorem turnsOfAll_alone (calls : List Access) : (turnsOfAll calls).alone = performAll calls := by
  induction calls with
  | nil => rfl
  | cons call rest inductionHypothesis =>
    have first : call.turns.run.alone = call.perform.run := call.turns_does
    simp only [turnsOfAll, performAll] at inductionHypothesis ⊢
    rw [List.mapM_cons, List.mapM_cons, Turns.alone_bind, first]
    refine congrArg _ (funext fun answer => ?_)
    rw [Turns.alone_bind, inductionHypothesis]
    rfl

theorem turnsOfAll_settles {nodes : List Storage} (graph : Coherent nodes) {calls : List Access}
    (members : ∀ call ∈ calls, call.node ∈ nodes) :
    (turnsOfAll calls).Settles (Remembers nodes) (Change nodes) (calls.map outcome) := by
  induction calls with
  | nil => rfl
  | cons call rest inductionHypothesis =>
    have first := turns_settles graph (members call (by simp))
    have others := inductionHypothesis fun other member => members other (by simp [member])
    simp only [turnsOfAll] at others ⊢
    rw [List.mapM_cons]
    exact Turns.Settles.bind first (others.bind rfl)

end Access

/-! ## The tables of a workspace -/

theorem table?_window {parent window : Storage} {start size : Nat} (made : parent.window start size = .ok window) :
    window.table? = none := by
  obtain ⟨_, _, rfl⟩ := slice_of_window made
  rfl

/-- Hash trees are built without caches. -/
theorem LevelChain.table?_eq_none {content hashes : Storage} {policy : Policy} {padded : Bool} {number : Nat}
    {placements : List HashPlacement} {levels : List HashLevel}
    (chain : LevelChain content policy padded number hashes placements levels) (noTable : hashes.table? = none) :
    ∀ node ∈ levels.flatMap HashLevel.nodes, node.table? = none := by
  induction chain with
  | nil => exact fun _ none => nomatch none
  | cons windowed _ _ _ inductionHypothesis =>
    intro node member
    simp only [List.flatMap_cons, HashLevel.nodes, List.mem_append, List.mem_cons, List.not_mem_nil, or_false] at member
    obtain (rfl | rfl | rfl) | below := member
    · rfl
    · exact table?_window windowed
    · exact noTable
    · exact inductionHypothesis rfl node below

variable {admits : StorageCipher → Nat → Prop} {w first last : Workspace} {table blockSize capacity : Nat}
  {inner : Storage}

/-- A cache that a step leaves was there, or it was made by the step. -/
theorem mem_or_cacheRun_of_step (reached : StepsOf admits {} first) (step : StepOf admits first last)
    (member : cache table inner blockSize capacity ∈ last.nodes) :
    cache table inner blockSize capacity ∈ first.nodes ∨
      CacheRun (cache table inner blockSize capacity) last [] := by
  have differs : ∀ {node : Storage}, node.table? = none → cache table inner blockSize capacity ≠ node := by
    rintro _ noTable rfl
    cases noTable
  cases step with
  | memory | stream | decrypt | concat | indirect =>
    exact .inl (List.mem_of_ne_of_mem (differs rfl) member)
  | slice parentMember windowed => exact .inl (List.mem_of_ne_of_mem (differs (table?_window windowed)) member)
  | verified => exact .inl (List.mem_of_ne_of_mem (differs rfl) member)
  | cache innerMember made =>
    obtain rfl | old := List.mem_cons.mp member
    · exact .inr (.made reached innerMember made)
    · exact .inl old
  | tree contentMember short made =>
    obtain new | old := List.mem_append.mp member
    · exact absurd rfl (differs ((levelChain_of_make made).table?_eq_none rfl _ new))
    · exact .inl old
  | noTree | read | validate | validateTree | readerRead | readerExactly | readerToEnd => exact .inl member

theorem exists_cacheRun (reached : StepsOf admits {} w) (member : cache table inner blockSize capacity ∈ w.nodes) :
    ∃ ranges, CacheRun (cache table inner blockSize capacity) w ranges := by
  generalize empty : ({} : Workspace) = start at reached
  induction reached with
  | refl => subst empty; cases member
  | step before next inductionHypothesis =>
    subst empty
    obtain old | run := mem_or_cacheRun_of_step before next member
    · obtain ⟨ranges, run⟩ := inductionHypothesis old
      obtain ⟨more, run⟩ := run.exists_more (StepsOf.step .refl next)
      exact ⟨_, run⟩
    · exact ⟨[], run⟩

theorem tablesFit_of_steps (reached : StepsOf admits {} w) : TablesFit w.nodes w.session := by
  intro table inner blockSize capacity member
  obtain ⟨ranges, run⟩ := exists_cacheRun reached member
  have few := length_recentBlocks_le capacity (ranges.flatMap (inner.accesses blockSize))
  rw [← run.indices_eq, CacheTable.indices, List.length_map] at few
  exact ⟨run.indices_eq ▸ nodup_recentBlocks _ _, few⟩

/-! ## Any number of readers -/

namespace Pool

/-- Readers that have made none of their calls. -/
def ofReaders {count : Nat} (session : Session) (calls : Fin count → List Access) : Pool count (List Answer) :=
  ⟨session, fun reader => Access.turnsOfAll (calls reader)⟩

/-- A reader that nobody disturbs performs its calls, and no schedule goes on for ever. However the turns of readers are
    interleaved, no block has two entries in the table of a cache, no table exceeds its capacity, and only bytes of the
    storage below are held; a recorded verdict never changes; and who is done was answered as if alone. Where nobody has
    a turn, all are done. -/
theorem readers_agree (reached : StepsOf admits {} w) {count : Nat} {calls : Fin count → List Access}
    (members : ∀ reader, ∀ call ∈ calls reader, call.node ∈ w.nodes) :
    (∀ reader, (Access.turnsOfAll (calls reader)).alone = Access.performAll (calls reader)) ∧
    (∀ schedule : Nat → Pool count (List Answer), ∃ time, ¬ (schedule time).Turn (schedule (time + 1))) ∧
    ∀ pool, (ofReaders w.session calls).Reaches pool →
      (∀ {table inner blockSize capacity}, cache table inner blockSize capacity ∈ w.nodes →
        (pool.session.table table).indices.Nodup ∧ (pool.session.table table).length ≤ capacity ∧
        ∀ entry ∈ pool.session.table table, (inner.read (entry.1 * blockSize)
          (blockLength inner.size blockSize entry.1)).result w.session = .ok entry.2) ∧
      (∀ later, pool.Reaches later → ∀ cell block, (pool.session.verdictsOf cell).verdict block ≠ .unchecked →
        (later.session.verdictsOf cell).verdict block = (pool.session.verdictsOf cell).verdict block) ∧
      (∀ reader answers, pool.threads reader = .done answers →
        answers = (Access.performAll (calls reader) w.session).1) ∧
      ((∀ later, ¬ pool.Turn later) → ∀ reader, ∃ answers, pool.threads reader = .done answers) := by
  obtain ⟨graph, remembers⟩ := Workspace.sound_of_steps reached
  have keeps := Change.remembers graph
  -- each reader settles on its own, and so do all of them together
  have settles := fun reader => Access.turnsOfAll_settles graph (members reader)
  have started : (ofReaders w.session calls).Settled (Remembers w.nodes) (Change w.nodes)
      fun reader => (calls reader).map Access.outcome := ⟨remembers, settles⟩
  refine ⟨fun reader => Access.turnsOfAll_alone _, schedule_ends, fun pool run => ?_⟩
  obtain ⟨changes, settled⟩ := started.reaches keeps run
  refine ⟨fun {table inner blockSize capacity} member => ?_, fun later more cell block recorded => ?_,
    fun reader answers done => ?_, done_of_no_turn⟩
  · obtain ⟨distinct, few⟩ := Changes.tablesFit changes graph remembers (tablesFit_of_steps reached) member
    refine ⟨distinct, few, fun entry held => ?_⟩
    have below := inner.read_answers graph (graph.closed _ member inner (by simp [Storage.children]))
    exact (below _ _ w.session remembers).1.trans (settled.holds.blocks member entry held)
  · exact Changes.verdict (settled.reaches keeps more).1 graph settled.holds recorded
  · rw [settled.eq_of_done done, ← Access.turnsOfAll_alone]
    exact ((settles reader).alone keeps remembers).symm

def racingData : Storage := .memory #[1, 2, 3, 4]

/-- A cache with room for one block, and two blocks with wrong hashes on top of it. -/
def racingLevel : HashLevel := ⟨0, ⟨2, 1, .ignore, false⟩, cache 0 racingData 2 1, .memory (.replicate 64 0)⟩

def racingWorkspace : Workspace :=
  let cached := ((Workspace.add {} racingData).left (racingData.cached 2 1)).add racingLevel.data
  let hashed := cached.add racingLevel.hashes
  (hashed.left (HashLevel.make racingLevel.data racingLevel.hashes racingLevel.check)).add racingLevel.storage

/-- Two readers that check the first block and then use the second one. -/
def racingCalls : Fin 2 → List Access := fun _ => [.check racingLevel 0, .block 0 racingData 2 1 1]

/-- The readers after twelve turns, taken by turns. -/
def racingPool : Pool 2 (List Answer) :=
  [0, 1, 0, 1, 0, 1, 0, 1, 0, 1, 0, 1].foldl act (ofReaders racingWorkspace.session racingCalls)

/-- Both readers miss both blocks and put them into the table, and both find the first block unchecked and check it. -/
theorem readers_agree_racing : Steps {} racingWorkspace ∧
    (∀ reader, ∀ call ∈ racingCalls reader, call.node ∈ racingWorkspace.nodes) ∧
    (ofReaders racingWorkspace.session racingCalls).Reaches racingPool ∧
    (∀ reader, racingPool.threads reader = .done [.ok ([1, 2], some .invalid), .ok ([3, 4], none)]) ∧
    (racingPool.session.table 0).length ≤ 1 := by
  have reached : Steps {} racingWorkspace :=
    .step (.step (.step (.step .refl (.memory (by decide))) (.cache (.head _) rfl)) (.memory (by decide)))
      (.verified (.tail _ (.head _)) (.head _) rfl)
  have members : ∀ reader, ∀ call ∈ racingCalls reader, call.node ∈ racingWorkspace.nodes :=
    fun _ => List.forall_mem_cons.mpr ⟨.head _, List.forall_mem_singleton.mpr (.tail _ (.tail _ (.head _)))⟩
  have run : (ofReaders racingWorkspace.session racingCalls).Reaches racingPool := reaches_schedule _ _
  obtain ⟨-, -, holds⟩ := readers_agree reached members
  obtain ⟨tables, -, answered, -⟩ := holds racingPool run
  have finished : ∀ reader, ∃ answers, racingPool.threads reader = .done answers :=
    Fin.forall_fin_two.mpr ⟨⟨_, rfl⟩, ⟨_, rfl⟩⟩
  have alone : ∀ reader, (Access.performAll (racingCalls reader) racingWorkspace.session).1 =
      [.ok ([1, 2], some .invalid), .ok ([3, 4], none)] := by decide +kernel
  refine ⟨reached, members, run, fun reader => ?_, (tables (.tail _ (.tail _ (.head _)))).2.1⟩
  obtain ⟨answers, done⟩ := finished reader
  rw [done, answered reader answers done, alone reader]

end Pool

end SealedContent
