import SealedContent.Proofs.HashTree.Image
import SealedContent.Proofs.Storage.Graph

/-! # Properties that reads keep

A read changes a session in three ways: a cache uses a block, a verified node checks one, and a warning is written
down. A property that all of this keeps, for the nodes that a read can reach, is kept by the read:
`Storage.read_keeping`. Blocks are only used and checked inside their storage.
-/

namespace SealedContent

open Storage (cache verified children readSegments)

/-- What a read of some nodes, and of all that these are built on, does one at a time keeps the property. -/
structure Keeping (among : Storage → Prop) (kept : Session → Prop) : Prop where
  closed : ∀ {node}, among node → ∀ child ∈ node.children, among child
  cached : ∀ {table inner blockSize capacity}, among (cache table inner blockSize capacity) →
    (∀ o n, Keeps kept (inner.read o n)) → ∀ o n, Keeps kept ((cache table inner blockSize capacity).read o n)
  checked : ∀ {cell check data hashes}, among (verified cell check data hashes) →
    (∀ o n, Keeps kept (data.read o n)) → (∀ o n, Keeps kept (hashes.read o n)) →
    ∀ block, block * check.blockSize < data.size →
      Keeps kept (checkedBlock cell check data.size data.read hashes.read block)
  logged : ∀ {session} warning, kept session → kept (session.logged warning)

variable {kept : Session → Prop} {among : Storage → Prop}

/-! ## Serving a range -/

theorem ranged_keeps {size offset length : Nat} {body : SessionM Bytes}
    (inside : 0 < length → offset + length ≤ size → Keeps kept body) :
    Keeps kept (ranged size offset length body) := by
  simp only [ranged]
  split
  · exact .throw _
  · split
    · exact .pure _
    · exact inside (by omega) (by omega)

theorem readUnits_keeps {inner : Fetch SessionM} (below : ∀ o n, Keeps kept (inner o n)) (name : String)
    (unit size : Nat) (decrypt : Nat → Bytes → Except Error Bytes) (offset length : Nat) :
    Keeps kept (readUnits name unit size inner decrypt offset length) := by
  simp only [readUnits]
  split
  · exact .throw _
  · split
    · exact .throw _
    · exact .bind (below _ _) fun _ => .bind (.ofExcept _) fun _ => .pure _

theorem readDecrypted_keeps {inner : Fetch SessionM} (below : ∀ o n, Keeps kept (inner o n))
    (cipher : StorageCipher) (size offset length : Nat) :
    Keeps kept (readDecrypted cipher size inner offset length) := by
  cases cipher with
  | ctr key counter => exact .bind (below _ _) fun _ => .pure _
  | generations key upper start table => exact .bind (below _ _) fun _ => .ofExcept _
  | xts key sectorSize first => exact readUnits_keeps below _ _ _ _ _ _
  | ecb key => exact readUnits_keeps below _ _ _ _ _ _

theorem readRelocated_keeps {base patch : Fetch SessionM} (table : BucketTree Relocation)
    (fromBase : ∀ o n, Keeps kept (base o n)) (fromPatch : ∀ o n, Keeps kept (patch o n)) (offset length : Nat) :
    Keeps kept (readRelocated table base patch offset length) := by
  unfold readRelocated
  split
  · exact .pure _
  · split
    · exact .throw _
    · next entry last _ =>
      split
      · exact .throw _
      · next source chosen =>
        have below : ∀ o n, Keeps kept (source o n) := by
          simp only [Relocation.choose?] at chosen
          split at chosen
          · cases chosen
            exact fromBase
          · cases chosen
            exact fromPatch
          · cases chosen
        split
        · exact .throw _
        · dsimp only
          split
          · exact .throw _
          · exact .bind (below _ _) fun _ =>
              .bind (readRelocated_keeps table fromBase fromPatch _ _) fun _ => .pure _
termination_by length
decreasing_by omega

/-- A block that a range touches starts inside the storage, whatever the size of blocks. -/
theorem touchedBlocks_inside {blockSize size offset length block : Nat} (nonempty : 0 < length)
    (inside : offset + length ≤ size) (touched : block ∈ touchedBlocks blockSize offset length) :
    block * blockSize < size := by
  obtain ⟨i, before, rfl⟩ := List.mem_range'.mp touched
  have last : offset / blockSize + 1 * i ≤ (offset + length - 1) / blockSize := by omega
  have start := Nat.le_trans (Nat.mul_le_mul_right blockSize last) (Nat.div_mul_le_self _ _)
  omega

/-! ## Blocks

The session that the use or the check of a block leaves may be known to be a sound one. Then only the changes that
lead to sound sessions count. -/

section

variable (sound : Session → Prop)

/-- The use of a block keeps what its fetch and a change to the table keep. -/
theorem cachedBlock_keeps {table blockSize capacity size block : Nat} {inner : Fetch SessionM}
    (whole : Keeps sound (cachedBlock table blockSize capacity size inner block))
    (implies : ∀ {session}, kept session → sound session) (below : ∀ o n, Keeps kept (inner o n))
    (changes : ∀ {session} change, sound (session.modifyTable table change) → kept session →
      kept (session.modifyTable table change)) :
    Keeps kept (cachedBlock table blockSize capacity size inner block) := by
  intro session holds
  have left := whole session (implies holds)
  simp only [cachedBlock] at left ⊢
  rw [SessionM.after_bind_ok (SessionM.result_get session)] at left ⊢
  simp only [SessionM.after_get] at left ⊢
  cases held : (session.table table).find? block with
  | some bytes =>
    rw [held] at left
    exact changes _ left holds
  | none =>
    rw [held] at left
    have fetched := below (block * blockSize) (blockLength size blockSize block) session holds
    dsimp only at left ⊢
    cases gives : (inner (block * blockSize) (blockLength size blockSize block)).result session with
    | error error =>
      rw [SessionM.after_bind_error gives]
      exact fetched
    | ok bytes =>
      rw [SessionM.after_bind_ok gives] at left ⊢
      exact changes _ left fetched

/-- A check always reaches a verdict. -/
theorem BlockCheck.verdict_ne_unchecked (check : BlockCheck) (bytes hash : Bytes) :
    check.verdict bytes hash ≠ .unchecked := by
  have judged : ∀ passed, Validity.ofBool passed ≠ .unchecked := by decide
  simp only [verdict]
  split
  · decide
  · exact judged _

/-- The check of a block keeps what the fetches and a record of a verdict keep. -/
theorem checkedBlock_keeps {cell size block : Nat} {check : BlockCheck} {data hashes : Fetch SessionM}
    (whole : Keeps sound (checkedBlock cell check size data hashes block))
    (implies : ∀ {session}, kept session → sound session) (fromData : ∀ o n, Keeps kept (data o n))
    (fromHashes : ∀ o n, Keeps kept (hashes o n))
    (records : ∀ {session new}, new ≠ .unchecked → sound (session.record cell block new) → kept session →
      kept (session.record cell block new)) :
    Keeps kept (checkedBlock cell check size data hashes block) := by
  intro session holds
  have left := whole session (implies holds)
  have read := fromData (block * check.blockSize) (blockLength size check.blockSize block) session holds
  simp only [checkedBlock] at left ⊢
  cases gives : (data (block * check.blockSize) (blockLength size check.blockSize block)).result session with
  | error error =>
    rw [SessionM.after_bind_error gives]
    exact read
  | ok bytes =>
    rw [SessionM.after_bind_ok gives] at left ⊢
    rw [SessionM.after_bind_ok (SessionM.result_get _)] at left ⊢
    simp only [SessionM.after_get] at left ⊢
    split
    · exact read
    · next unknown =>
      rw [if_neg unknown] at left
      have fetched := fromHashes (block * Sha256.size) Sha256.size _ read
      cases found : (hashes (block * Sha256.size) Sha256.size).result
          ((data (block * check.blockSize) (blockLength size check.blockSize block)).after session) with
      | error error =>
        rw [SessionM.after_bind_error found]
        exact fetched
      | ok hash =>
        rw [SessionM.after_bind_ok found] at left ⊢
        exact records (check.verdict_ne_unchecked bytes hash) left fetched

end

/-- A cache keeps what the use of each of its blocks keeps. -/
theorem cache_keeps {table blockSize capacity : Nat} {inner : Storage}
    (each : ∀ block, block * blockSize < inner.size →
      Keeps kept (cachedBlock table blockSize capacity inner.size (fun o n => inner.read o n) block))
    (offset length : Nat) : Keeps kept ((cache table inner blockSize capacity).read offset length) := by
  simp only [Storage.read]
  refine ranged_keeps fun nonempty inside => .bind (.mapM fun block touched => ?_) fun _ => .pure _
  exact each block (touchedBlocks_inside nonempty inside touched)

theorem enforce_keeps (logged : ∀ {session} warning, kept session → kept (session.logged warning))
    (check : BlockCheck) (block : Nat) (verdict : Validity) : Keeps kept (check.enforce block verdict) := by
  simp only [BlockCheck.enforce]
  split
  · cases check.policy with
    | fail => exact .throw _
    | warn => exact fun _ => logged _
    | off | ignore => exact .pure ()
  · exact .pure ()

/-! ## Reads -/

mutual

theorem Storage.read_keeping (keeping : Keeping among kept) : ∀ (node : Storage), among node →
    ∀ offset length, Keeps kept (node.read offset length)
  | .memory bytes, _, offset, length => by
    simp only [Storage.read]
    exact ranged_keeps fun _ _ => .pure _
  | .stream source, _, offset, length => by
    simp only [Storage.read]
    exact ranged_keeps fun _ _ => .pure _
  | .slice parent start size, member, offset, length => by
    have below := parent.read_keeping keeping (keeping.closed member _ (by simp [children]))
    simp only [Storage.read]
    exact ranged_keeps fun _ _ => below _ _
  | .cache table inner blockSize capacity, member, offset, length =>
    keeping.cached member (inner.read_keeping keeping (keeping.closed member _ (by simp [children]))) _ _
  | .decrypt inner cipher, member, offset, length => by
    have below := inner.read_keeping keeping (keeping.closed member _ (by simp [children]))
    simp only [Storage.read]
    exact ranged_keeps fun _ _ => readDecrypted_keeps below _ _ _ _
  | .concat segments, member, offset, length => by
    simp only [Storage.read]
    exact ranged_keeps fun _ _ => readSegments_keeping keeping segments (keeping.closed member) _ _
  | .indirect base patch table, member, offset, length => by
    have fromBase := base.read_keeping keeping (keeping.closed member _ (by simp [children]))
    have fromPatch := patch.read_keeping keeping (keeping.closed member _ (by simp [children]))
    simp only [Storage.read]
    exact ranged_keeps fun _ _ => readRelocated_keeps table fromBase fromPatch _ _
  | .verified cell check data hashes, member, offset, length => by
    have fromData := data.read_keeping keeping (keeping.closed member _ (by simp [children]))
    have fromHashes := hashes.read_keeping keeping (keeping.closed member _ (by simp [children]))
    simp only [Storage.read]
    refine ranged_keeps fun nonempty inside => ?_
    simp only [readVerified]
    split
    · exact fromData _ _
    · refine .bind (.mapM fun block touched => ?_) fun _ => .pure _
      have start := touchedBlocks_inside nonempty inside touched
      refine .bind (keeping.checked member fromData fromHashes block start) fun checked => ?_
      exact .bind (enforce_keeps keeping.logged check block checked.2) fun _ => .pure _

theorem readSegments_keeping (keeping : Keeping among kept) : ∀ (segments : List Storage),
    (∀ segment ∈ segments, among segment) → ∀ offset length, Keeps kept (readSegments segments offset length)
  | [], _, offset, length => by
    simp only [readSegments]
    exact .pure _
  | segment :: rest, members, offset, length => by
    have first := segment.read_keeping keeping (members segment (by simp))
    have others := readSegments_keeping keeping rest fun other member => members other (by simp [member])
    simp only [readSegments]
    split
    · exact .pure _
    · split
      · exact others _ _
      · exact .bind (first _ _) fun _ => .bind (others _ _) fun _ => .pure _

end

/-! ## Validation -/

/-- The blocks that are counted start inside the data. -/
theorem HashLevel.inside_of_lt {level : HashLevel} {block : Nat} (inside : block < level.blockCount) :
    block * level.check.blockSize < level.data.size := by
  by_cases positive : 0 < level.check.blockSize
  · exact (HashImage.lt_blockCount_iff positive).mp inside
  · rw [HashLevel.blockCount, Nat.eq_zero_of_not_pos positive, Nat.div_zero] at inside
    omega

theorem HashLevel.checkBlock_keeping (keeping : Keeping among kept) {level : HashLevel} (member : among level.storage)
    {block : Nat} (inside : block < level.blockCount) : Keeps kept (level.checkBlock block) := by
  have below := keeping.closed member
  refine keeping.checked member ?_ ?_ block (inside_of_lt inside)
  · exact level.data.read_keeping keeping (below _ (by simp [storage, children]))
  · exact level.hashes.read_keeping keeping (below _ (by simp [storage, children]))

theorem HashLevel.validate_keeping (keeping : Keeping among kept) {level : HashLevel} (member : among level.storage) :
    Keeps kept level.validate :=
  .bind (.mapM fun _ inside => .bind (checkBlock_keeping keeping member (List.mem_range.mp inside)) fun _ => .pure _)
    fun _ => .pure _

theorem HashTree.validate_keeping (keeping : Keeping among kept) {tree : HashTree}
    (members : ∀ level ∈ tree.levels, among level.storage) : Keeps kept tree.validate :=
  .bind (.mapM fun level member => HashLevel.validate_keeping keeping (members level member)) fun _ => .pure _

theorem HashTree.openLevel_keeping (keeping : Keeping among kept) {level : HashLevel} (member : among level.storage) :
    Keeps kept (openLevel level) := by
  simp only [openLevel]
  refine .bind (HashLevel.validate_keeping keeping member) fun outcome => ?_
  split
  · exact .bind (fun _ holds => holds) fun _ => enforce_keeps keeping.logged _ _ _
  · exact .pure _

/-! ## Nodes with a memory

The memory of a node is its own: what it is built on has others. -/

theorem Storage.sizeOf_lt_of_child : ∀ {node child : Storage}, child ∈ node.children → sizeOf child < sizeOf node
  | .slice .., _, member | .cache .., _, member | .decrypt .., _, member => by
    rw [List.mem_singleton.mp member]
    simp only [slice.sizeOf_spec, cache.sizeOf_spec, decrypt.sizeOf_spec]
    omega
  | .concat segments, _, member => by
    have inside : sizeOf _ < sizeOf segments := List.sizeOf_lt_of_mem member
    simp only [concat.sizeOf_spec]
    omega
  | .indirect .., _, member | .verified .., _, member => by
    simp only [children, List.mem_cons, List.not_mem_nil, or_false] at member
    simp only [indirect.sizeOf_spec, verified.sizeOf_spec]
    obtain rfl | rfl := member <;> omega

theorem Session.table_modifyTable_ne (session : Session) {table other : Nat} (apart : other ≠ table)
    (change : CacheTable → CacheTable) : (session.modifyTable table change).table other = session.table other := by
  simp [Session.table, modifyTable, Array.getD_eq_getD_getElem?, Array.getElem?_modify, Ne.symm apart]

theorem Session.verdictsOf_record_ne (session : Session) {cell other : Nat} (apart : other ≠ cell) (block : Nat)
    (new : Validity) : (session.record cell block new).verdictsOf other = session.verdictsOf other := by
  simp [Session.verdictsOf, record, Array.getD_eq_getD_getElem?, Array.getElem?_modify, Ne.symm apart]

/-- The memory of a node is as in another session. -/
structure Session.SameAt (node : Storage) (first session : Session) : Prop where
  table : ∀ table, node.table? = some table → session.table table = first.table table
  verdicts : ∀ cell, node.cell? = some cell → session.verdictsOf cell = first.verdictsOf cell

theorem Coherent.keeping_below {nodes : List Storage} (graph : Coherent nodes) {node : Storage} (member : node ∈ nodes)
    (first : Session) :
    Keeping (fun below => below ∈ nodes ∧ sizeOf below < sizeOf node) (Session.SameAt node first) where
  closed below child among :=
    ⟨graph.closed _ below.1 child among, Nat.lt_trans (Storage.sizeOf_lt_of_child among) below.2⟩
  cached {table inner blockSize capacity} below same := by
    refine cache_keeps fun block _ => cachedBlock_keeps (fun _ => True) (fun _ _ => trivial) (fun _ => trivial) same ?_
    refine fun change _ holds => ⟨fun number named => ?_, holds.verdicts⟩
    -- two caches with one table are the same node, but one of these lies below the other
    have apart : number ≠ table := by
      rintro rfl
      rw [graph.oneTable _ member _ below.1 _ named rfl] at below
      exact Nat.lt_irrefl _ below.2
    rw [Session.table_modifyTable_ne _ apart, holds.table number named]
  checked {cell check data hashes} below sameData sameHashes block _ := by
    refine checkedBlock_keeps (fun _ => True) (fun _ _ => trivial) (fun _ => trivial) sameData sameHashes ?_
    refine fun _ _ holds => ⟨holds.table, fun number named => ?_⟩
    have apart : number ≠ cell := by
      rintro rfl
      rw [graph.oneCell _ member _ below.1 _ named rfl] at below
      exact Nat.lt_irrefl _ below.2
    rw [Session.verdictsOf_record_ne _ apart, holds.verdicts number named]
  logged _ holds := ⟨holds.table, holds.verdicts⟩

/-- A read of what a node is built on leaves the memory of the node alone. -/
theorem Coherent.read_child_same {nodes : List Storage} (graph : Coherent nodes) {node child : Storage}
    (member : node ∈ nodes) (below : child ∈ node.children) (session : Session) (offset length : Nat) :
    session.SameAt node ((child.read offset length).after session) :=
  child.read_keeping (graph.keeping_below member session)
    ⟨graph.closed _ member _ below, Storage.sizeOf_lt_of_child below⟩ offset length session
    ⟨fun _ _ => rfl, fun _ _ => rfl⟩

end SealedContent
