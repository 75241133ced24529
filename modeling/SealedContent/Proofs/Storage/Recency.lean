import SealedContent.Proofs.Distinct
import SealedContent.Proofs.Storage.Preserved
import SealedContent.Proofs.Storage.Reads

/-! # The blocks that a cache holds

A cache holds the blocks that were accessed last (`recentBlocks`). A read of the cache accesses the blocks of its
range in order, up to the first that cannot be read (`Storage.accesses`). `CacheRun` lists the reads of a cache, from
when it was made on, whether they were made on the cache or through nodes above it: `cached_blocks_recent`.
-/

namespace SealedContent

open Storage (cache)
open Workspace (Steps StepsOf)

/-! ## The order of use -/

/-- The blocks of a log, each of them once and the last first, up to a number of them. -/
def recentBlocks (capacity : Nat) (log : List Nat) : List Nat := log.reverse.eraseDups.take capacity

/-- The order after one more access. -/
def useBlock (capacity : Nat) (order : List Nat) (block : Nat) : List Nat :=
  (block :: order.filter (· != block)).take capacity

/-- One of the first is dropped, so one more is needed. -/
theorem take_filter_take {block : Nat} : ∀ {order : List Nat} (count : Nat), order.Nodup →
    ((order.take (count + 1)).filter (· != block)).take count = (order.filter (· != block)).take count
  | [], _, _ => rfl
  | first :: others, count, distinct => by
    obtain ⟨new, distinct⟩ := List.nodup_cons.mp distinct
    rw [List.take_succ_cons]
    by_cases same : first = block
    · have kept : ∀ other ∈ others, (other != block) = true := by
        rintro other member
        simp only [bne_iff_ne]
        rintro rfl
        exact new (same ▸ member)
      have keptToo : ∀ other ∈ others.take count, (other != block) = true :=
        fun other member => kept other (List.mem_of_mem_take member)
      rw [List.filter_cons_of_neg (by simp [same]), List.filter_cons_of_neg (by simp [same]),
        List.filter_eq_self.mpr kept, List.filter_eq_self.mpr keptToo, List.take_take, Nat.min_self]
    · rw [List.filter_cons_of_pos (by simpa using same), List.filter_cons_of_pos (by simpa using same)]
      cases count with
      | zero => rfl
      | succ count => rw [List.take_succ_cons, List.take_succ_cons, take_filter_take count distinct]

/-- The order of one more access needs no more than the order before. -/
theorem recentBlocks_append_singleton (capacity : Nat) (log : List Nat) (block : Nat) :
    recentBlocks capacity (log ++ [block]) = useBlock capacity (recentBlocks capacity log) block := by
  rw [recentBlocks, List.reverse_append, List.reverse_singleton, List.singleton_append, eraseDups_cons_filter,
    useBlock, recentBlocks]
  cases capacity with
  | zero => rfl
  | succ count => rw [List.take_succ_cons, List.take_succ_cons, take_filter_take count (nodup_eraseDups _)]

theorem recentBlocks_nil (capacity : Nat) : recentBlocks capacity [] = [] := List.take_nil

theorem recentBlocks_append (capacity : Nat) (log more : List Nat) :
    recentBlocks capacity (log ++ more) = more.foldl (useBlock capacity) (recentBlocks capacity log) := by
  induction more generalizing log with
  | nil => rw [List.append_nil, List.foldl_nil]
  | cons block more inductionHypothesis =>
    rw [← List.singleton_append, ← List.append_assoc, inductionHypothesis, recentBlocks_append_singleton]
    rfl

theorem nodup_recentBlocks (capacity : Nat) (log : List Nat) : (recentBlocks capacity log).Nodup :=
  (nodup_eraseDups _).sublist (List.take_sublist _ _)

theorem length_recentBlocks_le (capacity : Nat) (log : List Nat) : (recentBlocks capacity log).length ≤ capacity :=
  List.length_take_le _ _

theorem mem_of_mem_recentBlocks {capacity block : Nat} {log : List Nat} (member : block ∈ recentBlocks capacity log) :
    block ∈ log := by
  have among := List.mem_of_mem_take member
  simpa using List.mem_eraseDups.mp among

/-! ## Tables -/

namespace CacheTable

theorem indices_without (table : CacheTable) (block : Nat) :
    (table.without block).indices = table.indices.filter (· != block) := by
  rw [indices, without, indices, List.filter_map]
  rfl

/-- A block that is held moves to the front. -/
theorem indices_promote {table : CacheTable} {capacity block : Nat} {bytes : Bytes} (few : table.length ≤ capacity)
    (held : table.find? block = some bytes) :
    (table.promote block).indices = useBlock capacity table.indices block := by
  have shorter : (table.without block).length < table.length :=
    List.length_filter_lt_length_iff_exists.mpr ⟨_, mem_of_find? held, by simp⟩
  have whole : ((block, bytes) :: table.without block).length ≤ capacity := by
    rw [List.length_cons]
    omega
  rw [useBlock, ← indices_without, promote, held]
  refine (List.take_of_length_le ?_).symm
  simpa [indices] using whole

/-- A block that is fetched stands at the front. -/
theorem indices_insert (table : CacheTable) (capacity block : Nat) (bytes : Bytes) :
    (table.insert capacity block bytes).indices = useBlock capacity table.indices block := by
  rw [useBlock, ← indices_without, insert, indices, List.map_take, List.map_cons]
  rfl

end CacheTable

/-! ## Reads of a cache -/

/-- A block can be read. -/
def Storage.hasBlock (inner : Storage) (blockSize block : Nat) : Bool :=
  (inner.outcome (block * blockSize) (blockLength inner.size blockSize block)).isOk

theorem Storage.hasBlock_of_ok {inner : Storage} {blockSize block : Nat} {bytes : Bytes}
    (gives : inner.outcome (block * blockSize) (blockLength inner.size blockSize block) = .ok bytes) :
    inner.hasBlock blockSize block = true := by
  rw [hasBlock, gives]
  rfl

theorem Storage.hasBlock_of_error {inner : Storage} {blockSize block : Nat} {error : Error}
    (gives : inner.outcome (block * blockSize) (blockLength inner.size blockSize block) = .error error) :
    inner.hasBlock blockSize block = false := by
  rw [hasBlock, gives]
  rfl

/-- The blocks that a read through a cache accesses: those of its range in order, up to the first that cannot be
    read. -/
def Storage.accesses (inner : Storage) (blockSize : Nat) (range : Region) : List Nat :=
  if range.offset + range.size ≤ inner.size ∧ 0 < range.size then
    (touchedBlocks blockSize range.offset range.size).takeWhile (inner.hasBlock blockSize)
  else []

variable {nodes : List Storage} {session : Session} {table blockSize capacity : Nat} {inner : Storage}

/-- The use of a block moves it to the front, if it can be read. -/
theorem indices_cachedBlock (graph : Coherent nodes) (remembers : Remembers nodes session)
    (member : cache table inner blockSize capacity ∈ nodes) (few : (session.table table).length ≤ capacity)
    (block : Nat) :
    (((cachedBlock table blockSize capacity inner.size inner.read block).after session).table table).indices =
      if inner.hasBlock blockSize block then useBlock capacity (session.table table).indices block
      else (session.table table).indices := by
  have made := remembers.tableMade _ member _ rfl
  have innerMember := graph.closed _ member inner (by simp [Storage.children])
  simp only [cachedBlock]
  rw [SessionM.after_bind_ok (SessionM.result_get session)]
  simp only [SessionM.after_get]
  cases held : (session.table table).find? block with
  | some bytes =>
    -- only what can be read is held
    have found := remembers.blocks member _ (CacheTable.mem_of_find? held)
    rw [if_pos (Storage.hasBlock_of_ok found), ← CacheTable.indices_promote few held]
    exact congrArg CacheTable.indices ((session.table_modifyTable made _ table).trans (if_pos rfl))
  | none =>
    have same := (graph.read_child_same member (by simp [Storage.children] : inner ∈ _) session
      (block * blockSize) (blockLength inner.size blockSize block)).table table rfl
    obtain ⟨answer, left⟩ := inner.read_answers graph innerMember (block * blockSize)
      (blockLength inner.size blockSize block) session remembers
    dsimp only
    cases gives : inner.outcome (block * blockSize) (blockLength inner.size blockSize block) with
    | error error =>
      rw [gives] at answer
      rw [SessionM.after_bind_error answer, same, Storage.hasBlock_of_error gives]
      rfl
    | ok bytes =>
      rw [gives] at answer
      rw [SessionM.after_bind_ok answer, if_pos (Storage.hasBlock_of_ok gives), ← same,
        ← CacheTable.indices_insert _ capacity block bytes]
      exact congrArg CacheTable.indices
        ((Session.table_modifyTable _ (left.tableMade _ member _ rfl) _ table).trans (if_pos rfl))

theorem length_useBlock_le (capacity : Nat) (order : List Nat) (block : Nat) :
    (useBlock capacity order block).length ≤ capacity := List.length_take_le _ _

/-- Blocks are used one after the other, up to the first that cannot be read. -/
theorem indices_mapM (graph : Coherent nodes) (member : cache table inner blockSize capacity ∈ nodes)
    (blocks : List Nat) : ∀ {session : Session}, Remembers nodes session →
    (session.table table).length ≤ capacity →
    (((blocks.mapM (cachedBlock table blockSize capacity inner.size inner.read)).after session).table table).indices =
      (blocks.takeWhile (inner.hasBlock blockSize)).foldl (useBlock capacity) (session.table table).indices := by
  have innerMember := graph.closed _ member inner (by simp [Storage.children])
  have below := inner.read_answers graph innerMember
  induction blocks with
  | nil => exact fun _ _ => rfl
  | cons block rest inductionHypothesis =>
    intro session remembers few
    have used := indices_cachedBlock graph remembers member few block
    obtain ⟨answer, left⟩ := cachedBlock_answers graph member below block session remembers
    rw [List.mapM_cons, List.takeWhile_cons]
    cases gives : inner.outcome (block * blockSize) (blockLength inner.size blockSize block) with
    | error error =>
      rw [gives] at answer
      rw [Storage.hasBlock_of_error gives] at used ⊢
      rw [SessionM.after_bind_error answer, used]
      rfl
    | ok bytes =>
      rw [gives] at answer
      rw [Storage.hasBlock_of_ok gives, if_pos rfl] at used ⊢
      have fewLeft := length_useBlock_le capacity (session.table table).indices block
      rw [← used, CacheTable.indices, List.length_map] at fewLeft
      have later := inductionHypothesis left fewLeft
      rw [used] at later
      rw [SessionM.after_bind_ok answer, List.foldl_cons, ← later]
      -- what comes behind the blocks changes nothing
      cases others : (rest.mapM (cachedBlock table blockSize capacity inner.size inner.read)).result _ with
      | error error => rw [SessionM.after_bind_error others]
      | ok values => rw [SessionM.after_bind_ok others]; rfl

/-- A read of a cache uses the blocks that it accesses. -/
theorem indices_read (graph : Coherent nodes) (remembers : Remembers nodes session)
    (member : cache table inner blockSize capacity ∈ nodes) (few : (session.table table).length ≤ capacity)
    (range : Region) :
    ((((cache table inner blockSize capacity).readRegion range).after session).table table).indices =
      (inner.accesses blockSize range).foldl (useBlock capacity) (session.table table).indices := by
  simp only [Storage.readRegion, Storage.read, ranged, Storage.accesses]
  by_cases outside : inner.size < range.offset + range.size
  · rw [if_pos outside, if_neg (by omega)]
    rfl
  · rw [if_neg outside]
    by_cases empty : range.size = 0
    · rw [if_pos empty, if_neg (by omega)]
      rfl
    · rw [if_neg empty, if_pos (by omega)]
      have used := indices_mapM graph member (touchedBlocks blockSize range.offset range.size) remembers few
      rw [← used]
      simp only [readCached]
      cases blocks : ((touchedBlocks blockSize range.offset range.size).mapM
          (cachedBlock table blockSize capacity inner.size inner.read)).result session with
      | error error => rw [SessionM.after_bind_error blocks]
      | ok values => rw [SessionM.after_bind_ok blocks]; rfl

/-! ## Runs -/

/-- The reads of a cache since it was made, in order. What happens between them leaves its table alone. -/
inductive CacheRun (node : Storage) : Workspace → List Region → Prop where
  | made {admits w inner blockSize capacity} (reached : StepsOf admits {} w) (member : inner ∈ w.nodes)
      (made : (Storage.cached inner blockSize capacity).result w.session = .ok node) :
      CacheRun node ((w.left (Storage.cached inner blockSize capacity)).add node) []
  | read {w ranges} (run : CacheRun node w ranges) (range : Region) :
      CacheRun node (w.left (node.readRegion range)) (ranges ++ [range])
  | apart {w last ranges} (run : CacheRun node w ranges) (sound : last.Sound) (member : node ∈ last.nodes)
      (same : w.session.SameAt node last.session) : CacheRun node last ranges

namespace CacheRun

variable {node : Storage} {w last : Workspace} {ranges : List Region} {admits : StorageCipher → Nat → Prop}

theorem sound (run : CacheRun node w ranges) : w.Sound ∧ node ∈ w.nodes := by
  induction run with
  | made reached member made => exact ⟨(Workspace.sound_of_steps reached).cache member made, .head _⟩
  | read run range inductionHypothesis =>
    obtain ⟨sound, member⟩ := inductionHypothesis
    exact ⟨sound.keeps (sound.read_keeps member _ _), member⟩
  | apart run sound member same => exact ⟨sound, member⟩

theorem indices_eq (run : CacheRun (cache table inner blockSize capacity) w ranges) :
    (w.session.table table).indices = recentBlocks capacity (ranges.flatMap (inner.accesses blockSize)) := by
  induction run with
  | @made _ w _ _ _ reached member made =>
    cases made
    have empty : (w.session.tables.push []).getD w.session.tables.size [] = [] := by
      rw [Session.Same.getD_push]
      simp [Array.getD_eq_getD_getElem?]
    rw [List.flatMap_nil, recentBlocks_nil]
    exact congrArg CacheTable.indices empty
  | @read w ranges run range inductionHypothesis =>
    obtain ⟨sound, member⟩ := run.sound
    have few := length_recentBlocks_le capacity (ranges.flatMap (inner.accesses blockSize))
    rw [← inductionHypothesis, CacheTable.indices, List.length_map] at few
    rw [List.flatMap_append, recentBlocks_append, ← inductionHypothesis, List.flatMap_singleton]
    exact indices_read sound.graph sound.remembers member few range
  | apart run sound member same inductionHypothesis => rw [same.table table rfl, inductionHypothesis]

/-- One thing that is done to a node, seen from a cache: either it is a read of the cache, or it leaves the table
    alone. -/
theorem keeping (sound : w.Sound) (member : cache table inner blockSize capacity ∈ w.nodes) (ranges : List Region) :
    Keeping (· ∈ w.nodes) fun session =>
      ∃ more, CacheRun (cache table inner blockSize capacity) ⟨w.nodes, session⟩ (ranges ++ more) where
  closed there := sound.graph.closed _ there
  cached {other otherInner otherSize otherCapacity} there below := by
    by_cases same : other = table
    · subst same
      cases sound.graph.oneTable _ member _ there other rfl rfl
      rintro offset length session ⟨more, run⟩
      exact ⟨more ++ [⟨offset, length⟩], by rw [← List.append_assoc]; exact run.read ⟨offset, length⟩⟩
    · have answers := fun block => cachedBlock_answers sound.graph there
        (otherInner.read_answers sound.graph (sound.graph.closed _ there _ (by simp [Storage.children]))) block
      refine cache_keeps fun block _ => cachedBlock_keeps (Remembers w.nodes) (answers block).keeps ?_ below ?_
      · exact fun ⟨_, run⟩ => run.sound.1.remembers
      · rintro session change remembers ⟨more, run⟩
        refine ⟨more, run.apart ⟨sound.graph, remembers⟩ member ⟨?_, nofun⟩⟩
        rintro _ ⟨⟩
        exact session.table_modifyTable_ne (Ne.symm same) change
  checked {cell check data hashes} there fromData fromHashes block _ := by
    have below := sound.graph.closed _ there
    have answers := checkedBlock_answers sound.graph there
      (data.read_answers sound.graph (below _ (by simp [Storage.children])))
      (hashes.read_answers sound.graph (below _ (by simp [Storage.children]))) block
    refine checkedBlock_keeps (Remembers w.nodes) answers.keeps ?_ fromData fromHashes ?_
    · exact fun ⟨_, run⟩ => run.sound.1.remembers
    · rintro session new - remembers ⟨more, run⟩
      exact ⟨more, run.apart ⟨sound.graph, remembers⟩ member ⟨fun _ _ => rfl, nofun⟩⟩
  logged warning := by
    rintro ⟨more, run⟩
    exact ⟨more, run.apart ⟨sound.graph, run.sound.1.remembers.logged warning⟩ member ⟨fun _ _ => rfl, nofun⟩⟩

/-- Whatever is done, the cache is read, and its table changes in no other way. -/
theorem exists_more (run : CacheRun (cache table inner blockSize capacity) w ranges) (steps : StepsOf admits w last) :
    ∃ more, CacheRun (cache table inner blockSize capacity) last (ranges ++ more) := by
  have preserved : Workspace.Preserved [cache table inner blockSize capacity] fun middle =>
      ∃ more, CacheRun (cache table inner blockSize capacity) middle (ranges ++ more) := by
    constructor
    · rintro first middle ⟨more, run⟩ sound there ⟨same, -⟩
      exact ⟨more, run.apart sound (there _ (.head _)) ⟨fun table _ => same.table table, nofun⟩⟩
    · exact fun sound there => keeping sound (there _ (.head _)) ranges
  obtain ⟨sound, member⟩ := run.sound
  exact steps.preserves preserved sound (List.forall_mem_singleton.mpr member) ⟨[], by rwa [List.append_nil]⟩

/-- A block that was accessed starts inside the storage. -/
theorem inside_of_accessed {range : Region} {block : Nat} (accessed : block ∈ inner.accesses blockSize range) :
    block * blockSize < inner.size := by
  rw [Storage.accesses] at accessed
  split at accessed
  · next inside =>
    exact touchedBlocks_inside inside.2 inside.1 ((List.takeWhile_sublist _).mem accessed)
  · cases accessed

/-- A block that is held has the bytes that the storage behind the cache has there. -/
theorem holds (run : CacheRun (cache table inner blockSize capacity) w ranges) :
    ∀ entry ∈ w.session.table table, entry.1 * blockSize < inner.size ∧
      entry.2.length = min blockSize (inner.size - entry.1 * blockSize) ∧
      (inner.read (entry.1 * blockSize) (min blockSize (inner.size - entry.1 * blockSize))).result w.session =
        .ok entry.2 := by
  intro entry held
  obtain ⟨sound, member⟩ := run.sound
  have innerMember := sound.graph.closed _ member inner (by simp [Storage.children])
  have accessed : entry.1 ∈ ranges.flatMap (inner.accesses blockSize) := by
    have recent : entry.1 ∈ (w.session.table table).indices := List.mem_map_of_mem held
    rw [run.indices_eq] at recent
    exact mem_of_mem_recentBlocks recent
  obtain ⟨range, -, among⟩ := List.mem_flatMap.mp accessed
  have inside := inside_of_accessed among
  have found := sound.remembers.blocks member entry held
  have answer := (inner.read_answers sound.graph innerMember (entry.1 * blockSize)
    (blockLength inner.size blockSize entry.1) _ sound.remembers).1
  exact ⟨inside, ByteMap.length_of_window? (outcome_bytes sound.graph innerMember found), answer.trans found⟩

theorem hasBlock_iff (run : CacheRun (cache table inner blockSize capacity) w ranges) (block : Nat) :
    inner.hasBlock blockSize block = true ↔ ∃ bytes,
      (inner.read (block * blockSize) (blockLength inner.size blockSize block)).result w.session = .ok bytes := by
  obtain ⟨sound, member⟩ := run.sound
  have innerMember := sound.graph.closed _ member inner (by simp [Storage.children])
  rw [(inner.read_answers sound.graph innerMember _ _ _ sound.remembers).1, Storage.hasBlock]
  cases inner.outcome (block * blockSize) (blockLength inner.size blockSize block) with
  | error error => exact ⟨nofun, fun ⟨_, gives⟩ => nomatch gives⟩
  | ok bytes => exact ⟨fun _ => ⟨bytes, rfl⟩, fun _ => rfl⟩

end CacheRun

/-- From when a cache was made on, whatever is done to it and to other nodes, it holds the last blocks that its reads
    accessed, the last one first, with the bytes that the storage behind it has there. -/
theorem cached_blocks_recent {admits : StorageCipher → Nat → Prop} {first : Workspace}
    (reached : StepsOf admits {} first) {inner node : Storage}
    (member : inner ∈ first.nodes) {blockSize capacity : Nat}
    (made : (Storage.cached inner blockSize capacity).result first.session = .ok node) :
    ∃ table, node = cache table inner (max blockSize 1) (max capacity 1) ∧
      CacheRun node ((first.left (Storage.cached inner blockSize capacity)).add node) [] ∧
      ∀ w ranges, CacheRun node w ranges →
        (w.session.table table).indices =
          recentBlocks (max capacity 1) (ranges.flatMap (inner.accesses (max blockSize 1))) ∧
        (w.session.table table).indices.Nodup ∧ (w.session.table table).length ≤ max capacity 1 ∧
        (∀ entry ∈ w.session.table table, entry.1 * max blockSize 1 < inner.size ∧
          entry.2.length = min (max blockSize 1) (inner.size - entry.1 * max blockSize 1) ∧
          (inner.read (entry.1 * max blockSize 1) (min (max blockSize 1)
            (inner.size - entry.1 * max blockSize 1))).result w.session = .ok entry.2) ∧
        (∀ block, inner.hasBlock (max blockSize 1) block = true ↔ ∃ bytes, (inner.read (block * max blockSize 1)
          (blockLength inner.size (max blockSize 1) block)).result w.session = .ok bytes) ∧
        ∀ last, StepsOf admits w last → ∃ more, CacheRun node last (ranges ++ more) := by
  have start := CacheRun.made reached member made
  cases made
  refine ⟨_, rfl, start, fun w ranges run => ?_⟩
  have indices := run.indices_eq
  have few := length_recentBlocks_le (max capacity 1) (ranges.flatMap (inner.accesses (max blockSize 1)))
  rw [← indices, CacheTable.indices, List.length_map] at few
  exact ⟨indices, indices ▸ nodup_recentBlocks _ _, few, run.holds, run.hasBlock_iff,
    fun last => run.exists_more⟩

/-- Six bytes of which the third and the fourth cannot be read. -/
def gappedSix : Storage :=
  .indirect (.memory #[]) (.memory #[1, 2, 3, 4, 5, 6]) ⟨[⟨0, 2, [⟨0, 0, 1⟩]⟩, ⟨4, 6, [⟨4, 4, 1⟩]⟩], 6⟩

def workspaceOfGapped : Workspace :=
  ((Workspace.add {} (.memory #[])).add (.memory #[1, 2, 3, 4, 5, 6])).add gappedSix

/-- Two of three blocks are held. The last read fails behind its first block. -/
theorem cached_blocks_recent_gapped : Steps {} workspaceOfGapped ∧
    ∃ w, CacheRun (cache 0 gappedSix 2 2) w [⟨0, 1⟩, ⟨4, 2⟩, ⟨0, 6⟩] ∧ (w.session.table 0).indices = [0, 2] := by
  have reached : Steps {} workspaceOfGapped :=
    .step (.step (.step .refl (.memory (by decide))) (.memory (by decide)))
      (.indirect (.tail _ (.head _)) (.head _) rfl (by decide))
  have made : (Storage.cached gappedSix 2 2).result workspaceOfGapped.session = .ok (cache 0 gappedSix 2 2) := rfl
  obtain ⟨table, same, start, holds⟩ := cached_blocks_recent reached (.head _) made
  cases same
  have run := ((start.read ⟨0, 1⟩).read ⟨4, 2⟩).read ⟨0, 6⟩
  refine ⟨reached, _, run, (holds _ _ run).1.trans ?_⟩
  decide +kernel

end SealedContent
