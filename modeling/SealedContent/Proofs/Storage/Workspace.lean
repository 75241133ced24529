import SealedContent.Proofs.HashTree.Chain
import SealedContent.Proofs.Storage.Graph
import SealedContent.Storage.Reader

/-! # Workspaces

A workspace is the storages that were made so far and the session they live in. `StepOf` is one thing
that is done in it, from making a node to reading one, and `StepsOf` any number of them. They say which
ciphers may be put on which sizes: `Step` and `Steps` those under which no sum has more than 64 bits. Every
workspace that is reached from the empty one is `Sound`, whatever the ciphers: `sound_of_steps`.
-/

namespace SealedContent

open Storage (cache verified)

/-- The nodes of a level: itself, its data and its hashes. -/
def HashLevel.nodes (level : HashLevel) : List Storage := [level.storage, level.data, level.hashes]

/-- The nodes of all levels. -/
def HashTree.nodes (tree : HashTree) : List Storage := tree.levels.flatMap HashLevel.nodes

/-- The storages made so far, and what their reads remember. -/
structure Workspace where
  nodes : List Storage := []
  session : Session := {}

namespace Workspace

/-- One more node. -/
def add (workspace : Workspace) (node : Storage) : Workspace :=
  { workspace with nodes := node :: workspace.nodes }

/-- The same nodes after a computation in the session. -/
def left {α : Type} (workspace : Workspace) (action : SessionM α) : Workspace :=
  { workspace with session := action.after workspace.session }

/-- The nodes of a tree beside those that were there. -/
def addTree (workspace : Workspace) (tree : HashTree) : Workspace :=
  { workspace with nodes := tree.nodes ++ workspace.nodes }

@[simp] theorem nodes_add (w : Workspace) (node : Storage) : (w.add node).nodes = node :: w.nodes := rfl

@[simp] theorem session_add (w : Workspace) (node : Storage) : (w.add node).session = w.session := rfl

@[simp] theorem nodes_left {α : Type} (w : Workspace) (action : SessionM α) :
    (w.left action).nodes = w.nodes := rfl

@[simp] theorem session_left {α : Type} (w : Workspace) (action : SessionM α) :
    (w.left action).session = action.after w.session := rfl

/-- One thing that is done in a workspace, if `admits` says which ciphers may be put on a storage of which
    size. A tree that cannot be opened leaves what its check remembered. -/
inductive StepOf (admits : StorageCipher → Nat → Prop) : Workspace → Workspace → Prop where
  -- nodes
  | memory {w} {bytes : Array UInt8} (short : bytes.size < UInt64.size) : StepOf admits w (w.add (.memory bytes))
  | stream {w} {source : Array UInt8} (short : source.size < UInt64.size) :
      StepOf admits w (w.add (.stream source))
  | slice {w parent offset length node} (member : parent ∈ w.nodes)
      (made : parent.window offset length = .ok node) : StepOf admits w (w.add node)
  | cache {w inner node} (member : inner ∈ w.nodes) {blockSize capacity : Nat}
      (made : (Storage.cached inner blockSize capacity).result w.session = .ok node) :
      StepOf admits w ((w.left (Storage.cached inner blockSize capacity)).add node)
  | decrypt {w inner cipher} (member : inner ∈ w.nodes) (wellMade : StorageCipher.WellMade cipher)
      (admitted : admits cipher inner.size) : StepOf admits w (w.add (.decrypt inner cipher))
  | concat {w segments} (members : ∀ segment ∈ segments, segment ∈ w.nodes)
      (short : Storage.sizes segments < UInt64.size) : StepOf admits w (w.add (.concat segments))
  | indirect {w base patch} {table : BucketTree Relocation} (baseMember : base ∈ w.nodes)
      (patchMember : patch ∈ w.nodes) (wellLaid : table.WellLaid) (short : table.size < UInt64.size) :
      StepOf admits w (w.add (.indirect base patch table))
  | verified {w data hashes check level} (dataMember : data ∈ w.nodes)
      (hashesMember : hashes ∈ w.nodes)
      (made : (HashLevel.make data hashes check).result w.session = .ok level) :
      StepOf admits w ((w.left (HashLevel.make data hashes check)).add level.storage)
  -- hash trees
  | tree {w content master placements padded policy tree} (member : content ∈ w.nodes)
      (short : List.length master < UInt64.size)
      (made : (HashTree.make content master placements padded policy).result w.session = .ok tree) :
      StepOf admits w ((w.left (HashTree.make content master placements padded policy)).addTree tree)
  | noTree {w content master placements padded policy error} (member : content ∈ w.nodes)
      (short : List.length master < UInt64.size)
      (refused : (HashTree.make content master placements padded policy).result w.session =
        .error error) :
      StepOf admits w (w.left (HashTree.make content master placements padded policy))
  -- use
  | read {w node} (member : node ∈ w.nodes) (offset length : Nat) : StepOf admits w (w.left (node.read offset length))
  | validate {w} {level : HashLevel} (member : level.storage ∈ w.nodes) : StepOf admits w (w.left level.validate)
  | validateTree {w} {tree : HashTree} (members : ∀ level ∈ tree.levels, level.storage ∈ w.nodes) :
      StepOf admits w (w.left tree.validate)
  | readerRead {w node} (member : node ∈ w.nodes) (position count : Nat) :
      StepOf admits w (w.left ((ReaderM.read count).run' ⟨node, position⟩))
  | readerExactly {w node} (member : node ∈ w.nodes) (position count : Nat) :
      StepOf admits w (w.left ((ReaderM.exactly count).run' ⟨node, position⟩))
  | readerToEnd {w node} (member : node ∈ w.nodes) (position : Nat) :
      StepOf admits w (w.left (ReaderM.toEnd.run' ⟨node, position⟩))

/-- Any number of things done one after the other. -/
inductive StepsOf (admits : StorageCipher → Nat → Prop) : Workspace → Workspace → Prop where
  | refl {w} : StepsOf admits w w
  | step {first middle last} (before : StepsOf admits first middle) (next : StepOf admits middle last) :
      StepsOf admits first last

/-- One thing that is done, where all positions and sector numbers have 64 bits. -/
abbrev Step : Workspace → Workspace → Prop := StepOf StorageCipher.Fits

/-- Any number of such things. -/
abbrev Steps : Workspace → Workspace → Prop := StepsOf StorageCipher.Fits

/-- Bytes that can be addressed are held by a node of their own. -/
theorem StepOf.ofBytes {admits : StorageCipher → Nat → Prop} {w : Workspace} {bytes : Bytes}
    (short : bytes.length < UInt64.size) : StepOf admits w (w.add (.ofBytes bytes)) :=
  .memory (by rwa [List.size_toArray])

/-- The nodes form a graph, and the session remembers nothing but what their reads give. -/
structure Sound (workspace : Workspace) : Prop where
  graph : Coherent workspace.nodes
  remembers : Remembers workspace.nodes workspace.session

namespace Sound

variable {w : Workspace}

/-! ## Making nodes -/

/-- A number that is above all others names no second node. -/
theorem unique_cons {key : Storage → Option Nat} {nodes : List Storage} {node : Storage} {bound : Nat}
    (unique : ∀ first ∈ nodes, ∀ second ∈ nodes, ∀ number, key first = some number →
      key second = some number → first = second)
    (made : ∀ other ∈ nodes, ∀ number, key other = some number → number < bound)
    (new : ∀ number, key node = some number → bound ≤ number) :
    ∀ first ∈ node :: nodes, ∀ second ∈ node :: nodes, ∀ number, key first = some number →
      key second = some number → first = second := by
  intro first firstMember second secondMember number firstNamed secondNamed
  -- a number of the new node is above all old ones
  cases List.mem_cons.mp firstMember with
  | inl firstSame =>
    cases List.mem_cons.mp secondMember with
    | inl secondSame => rw [firstSame, secondSame]
    | inr old =>
      have above := new number (firstSame ▸ firstNamed)
      have below := made second old number secondNamed
      omega
  | inr firstOld =>
    cases List.mem_cons.mp secondMember with
    | inl secondSame =>
      have above := new number (secondSame ▸ secondNamed)
      have below := made first firstOld number firstNamed
      omega
    | inr secondOld => exact unique first firstOld second secondOld number firstNamed secondNamed

theorem getD_push_old {α : Type} {items : Array α} {item other : α} {index : Nat}
    (old : index < items.size) : index < (items.push item).size ∧
      (items.push item).getD index other = items.getD index other := by
  refine ⟨by rw [Array.size_push]; omega, ?_⟩
  simp [Array.getD_eq_getD_getElem?, Array.getElem?_push, Nat.ne_of_lt old]

theorem getD_push_new {α : Type} (items : Array α) (item : α) : items.size ≤ items.size ∧
    items.size < (items.push item).size ∧ (items.push item).getD items.size item = item := by
  refine ⟨Nat.le_refl _, by rw [Array.size_push]; omega, ?_⟩
  simp [Array.getD_eq_getD_getElem?]

/-- A node over nodes that are there may be added, if its table and its verdicts are new. -/
theorem insert (sound : w.Sound) {node : Storage} {session : Session}
    (below : ∀ child ∈ node.children, child ∈ w.nodes) (wellMade : node.WellMade)
    (tables : ∀ table < w.session.tables.size, table < session.tables.size ∧
      session.table table = w.session.table table)
    (verdicts : ∀ cell < w.session.verdicts.size, cell < session.verdicts.size ∧
      session.verdictsOf cell = w.session.verdictsOf cell)
    (newTable : ∀ table, node.table? = some table → w.session.tables.size ≤ table ∧
      table < session.tables.size ∧ session.table table = [])
    (newCell : ∀ cell, node.cell? = some cell → w.session.verdicts.size ≤ cell ∧
      cell < session.verdicts.size ∧ session.verdictsOf cell = #[]) :
    Sound ⟨node :: w.nodes, session⟩ where
  graph := {
    closed := by
      intro other member child childMember
      cases List.mem_cons.mp member with
      | inl same => subst same; exact .tail _ (below child childMember)
      | inr old => exact .tail _ (sound.graph.closed other old child childMember)
    wellMade := by
      intro other member
      cases List.mem_cons.mp member with
      | inl same => rw [same]; exact wellMade
      | inr old => exact sound.graph.wellMade other old
    oneTable := unique_cons sound.graph.oneTable sound.remembers.tableMade
      fun table named => (newTable table named).1
    oneCell := unique_cons sound.graph.oneCell sound.remembers.cellMade
      fun cell named => (newCell cell named).1 }
  remembers := {
    tableMade := by
      intro other member table named
      cases List.mem_cons.mp member with
      | inl same => exact (newTable table (same ▸ named)).2.1
      | inr old => exact (tables table (sound.remembers.tableMade other old table named)).1
    cellMade := by
      intro other member cell named
      cases List.mem_cons.mp member with
      | inl same => exact (newCell cell (same ▸ named)).2.1
      | inr old => exact (verdicts cell (sound.remembers.cellMade other old cell named)).1
    blocks := by
      intro table inner blockSize capacity member entry entryMember
      cases List.mem_cons.mp member with
      | inl same =>
        have empty := (newTable table (same ▸ rfl)).2.2
        rw [empty] at entryMember
        cases entryMember
      | inr old =>
        rw [(tables table (sound.remembers.tableMade _ old _ rfl)).2] at entryMember
        exact sound.remembers.blocks old entry entryMember
    verdicts := by
      intro cell check data hashes member block recorded
      cases List.mem_cons.mp member with
      | inl same =>
        have empty := (newCell cell (same ▸ rfl)).2.2
        rw [empty] at recorded
        exact absurd rfl recorded
      | inr old =>
        rw [(verdicts cell (sound.remembers.cellMade _ old _ rfl)).2] at recorded ⊢
        exact sound.remembers.verdicts old block recorded }

/-- A node without memory of its own. -/
theorem add (sound : w.Sound) {node : Storage} (below : ∀ child ∈ node.children, child ∈ w.nodes)
    (wellMade : node.WellMade) (noTable : node.table? = none) (noCell : node.cell? = none) :
    (w.add node).Sound :=
  sound.insert below wellMade (fun _ made => ⟨made, rfl⟩) (fun _ made => ⟨made, rfl⟩)
    (fun _ named => by simp [noTable] at named) (fun _ named => by simp [noCell] at named)

/-- A window onto a slice is one onto its parent, which is there too. -/
theorem slice (sound : w.Sound) {parent node : Storage} {offset length : Nat}
    (member : parent ∈ w.nodes) (made : parent.window offset length = .ok node) :
    (w.add node).Sound := by
  simp only [Storage.window] at made
  split at made
  · cases made
  · next inside =>
    split at made
    -- the window looks past the slice, which lies inside its parent
    · next grandparent start size =>
      cases made
      have above := sound.graph.wellMade _ member
      simp only [Storage.WellMade, Storage.size] at above inside
      refine sound.add ?_ ?_ rfl rfl
      · intro child childMember
        simp only [Storage.children, List.mem_singleton] at childMember
        exact sound.graph.closed _ member _ (by simp [Storage.children, childMember])
      · show start + offset + length ≤ grandparent.size
        omega
    · cases made
      refine sound.add ?_ ?_ rfl rfl
      · intro child childMember
        simp only [Storage.children, List.mem_singleton] at childMember
        rw [childMember]; exact member
      · show offset + length ≤ parent.size
        omega

theorem cache (sound : w.Sound) {inner node : Storage} (member : inner ∈ w.nodes)
    {blockSize capacity : Nat}
    (made : (Storage.cached inner blockSize capacity).result w.session = .ok node) :
    ((w.left (Storage.cached inner blockSize capacity)).add node).Sound := by
  cases made
  apply sound.insert
  · intro child childMember
    simp only [Storage.children, List.mem_singleton] at childMember
    rw [childMember]; exact member
  · show 0 < max blockSize 1
    omega
  · exact fun table old => getD_push_old old
  · exact fun cell made => ⟨made, rfl⟩
  · intro table named
    cases named
    exact getD_push_new w.session.tables []
  · intro cell named
    cases named

theorem verified (sound : w.Sound) {data hashes : Storage} {check : BlockCheck} {level : HashLevel}
    (dataMember : data ∈ w.nodes) (hashesMember : hashes ∈ w.nodes)
    (made : (HashLevel.make data hashes check).result w.session = .ok level) :
    ((w.left (HashLevel.make data hashes check)).add level.storage).Sound := by
  obtain ⟨rfl, positive, enough, after⟩ := HashLevel.of_make made
  simp only [left]
  rw [after]
  apply sound.insert
  · intro child childMember
    simp only [HashLevel.storage, Storage.children, List.mem_cons, List.not_mem_nil, or_false]
      at childMember
    cases childMember with
    | inl same => rw [same]; exact dataMember
    | inr same => rw [same]; exact hashesMember
  · exact ⟨positive, enough⟩
  · exact fun table made => ⟨made, rfl⟩
  · exact fun cell old => getD_push_old old
  · intro table named
    cases named
  · intro cell named
    cases named
    exact getD_push_new w.session.verdicts #[]

/-- Only membership counts. -/
theorem congr {nodes : List Storage} (sound : w.Sound) (same : ∀ node, node ∈ nodes ↔ node ∈ w.nodes) :
    Sound { w with nodes := nodes } where
  graph := {
    closed := fun node member child below =>
      (same child).mpr (sound.graph.closed node ((same node).mp member) child below)
    wellMade := fun node member => sound.graph.wellMade node ((same node).mp member)
    oneTable := fun first firstMember second secondMember =>
      sound.graph.oneTable first ((same first).mp firstMember) second ((same second).mp secondMember)
    oneCell := fun first firstMember second secondMember =>
      sound.graph.oneCell first ((same first).mp firstMember) second ((same second).mp secondMember) }
  remembers := sound.remembers.mono fun node => (same node).mp

/-! ## Hash trees -/

/-- The nodes of a workspace after a computation that makes nodes if it succeeds. -/
def Makes {α : Type} (w : Workspace) (nodes : α → List Storage) (outcome : Except Error α)
    (session : Session) : Prop :=
  match outcome with
  | .ok value => Sound ⟨nodes value ++ w.nodes, session⟩
  | .error _ => Sound ⟨w.nodes, session⟩

theorem chain {content : Storage} {policy : Policy} {padded : Bool} (placements : List HashPlacement) :
    ∀ {w : Workspace} (number : Nat) {hashes : Storage}, w.Sound →
      content ∈ w.nodes → hashes ∈ w.nodes →
    Makes w (fun levels => levels.flatMap HashLevel.nodes)
      ((HashTree.chain content policy padded number hashes placements).result w.session)
      ((HashTree.chain content policy padded number hashes placements).after w.session) := by
  induction placements with
  | nil => exact fun _ _ sound _ _ => sound
  | cons placement rest inductionHypothesis =>
    intro w number hashes sound contentMember hashesMember
    simp only [HashTree.chain]
    refine SessionM.bind_cases (fun _ _ => sound) fun data windowed => ?_
    have windowSound := sound.slice contentMember windowed
    refine SessionM.bind_cases ?_ fun level made => ?_
    · intro error refused
      simp only [SessionM.after_lift] at refused ⊢
      rw [HashLevel.after_make_error refused]
      exact sound
    -- the level below is made in a workspace that has the window and the level
    · have levelSound := windowSound.verified (.head _) (List.mem_cons_of_mem _ hashesMember) made
      have rest := inductionHypothesis (number + 1) levelSound (.tail _ (.tail _ contentMember)) (.head _)
      simp only [session_add, session_left] at rest
      simp only [SessionM.after_lift]
      refine SessionM.bind_cases ?_ fun levels gives => ?_
      · intro error refused
        rw [refused] at rest
        exact ⟨sound.graph, rest.remembers.mono fun node member => .tail _ (.tail _ member)⟩
      · rw [gives] at rest
        refine rest.congr fun node => ?_
        obtain ⟨rfl, -⟩ := HashLevel.of_make made
        simp only [List.flatMap_cons, HashLevel.nodes, List.mem_append, List.mem_cons,
          List.not_mem_nil, nodes_add, nodes_left]
        constructor
        · rintro (((same | same | same | none) | deeper) | old)
          all_goals simp_all
        · rintro (deeper | same | same | old)
          all_goals simp_all

theorem openLevel_keeps {nodes : List Storage} (graph : Coherent nodes) {level : HashLevel}
    (member : level.storage ∈ nodes) : Keeps (Remembers nodes) (HashTree.openLevel level) := by
  simp only [HashTree.openLevel]
  refine Keeps.bind (HashLevel.validate_answers graph member).keeps fun outcome => ?_
  split
  · exact Keeps.bind (fun _ remembers => remembers) fun _ => (enforce_answers _ _ _).keeps
  · exact fun _ remembers => remembers

theorem tree (sound : w.Sound) {content : Storage} {master : Bytes} (member : content ∈ w.nodes)
    (short : master.length < UInt64.size) (placements : List HashPlacement) (padded : Bool)
    (policy : Policy) :
    Makes w HashTree.nodes
      ((HashTree.make content master placements padded policy).result w.session)
      ((HashTree.make content master placements padded policy).after w.session) := by
  have masterSound : (w.add (.ofBytes master)).Sound :=
    sound.add (fun _ none => nomatch none) (by simpa [Storage.ofBytes, Storage.WellMade] using short) rfl rfl
  have built := @chain content policy padded placements _ 1 _ masterSound
    (.tail _ member) (.head _)
  simp only [HashTree.make]
  refine SessionM.bind_cases ?_ fun levels gives => ?_
  · intro error refused
    simp only [session_add] at built
    rw [refused] at built
    exact ⟨sound.graph, built.remembers.mono fun node member => .tail _ member⟩
  · simp only [session_add] at built
    rw [gives] at built
    have top := (levelChain_of_chain placements gives).head_hashes
    cases levels with
    | nil => exact ⟨sound.graph, built.remembers.mono fun node member => .tail _ member⟩
    | cons first rest =>
      -- the master hash is a node too, as the hashes of the first level
      have sameNodes : ∀ node, node ∈ (first :: rest).flatMap HashLevel.nodes ++ w.nodes ↔
          node ∈ (first :: rest).flatMap HashLevel.nodes ++ (.ofBytes master :: w.nodes) := by
        intro node
        have topMember : Storage.ofBytes master ∈ (first :: rest).flatMap HashLevel.nodes :=
          List.mem_flatMap.mpr ⟨first, .head _, by simp [HashLevel.nodes, top first rfl]⟩
        simp only [List.mem_append, List.mem_cons]
        constructor
        · rintro (new | old)
          · exact .inl new
          · exact .inr (.inr old)
        · rintro (new | same | old)
          · exact .inl new
          · exact .inl (same ▸ topMember)
          · exact .inr old
      have all := built.congr sameNodes
      have firstMember : first.storage ∈ (first :: rest).flatMap HashLevel.nodes ++ w.nodes := by
        simp [HashLevel.nodes]
      have opened := openLevel_keeps all.graph firstMember
      by_cases unchecked : policy = .off
      · simp only [unchecked, ne_eq, not_true_eq_false, if_false]
        exact unchecked ▸ all
      · simp only [ne_eq, unchecked, not_false_eq_true, if_true]
        have kept := opened _ all.remembers
        refine SessionM.bind_cases (fun error refused => ?_) fun _ _ => ⟨all.graph, kept⟩
        exact ⟨sound.graph, kept.mono fun node member => List.mem_append_right _ member⟩

end Sound

end Workspace

/-! ## Readers -/

namespace ReaderM
variable {α β : Type} {kept : Session → Prop} {reader : Reader}

/-- From a reader, the computation stays in its storage and keeps the property of the session. -/
def KeepsAt (kept : Session → Prop) (reader : Reader) (action : ReaderM α) : Prop :=
  ∀ session, kept session → ((action.run.run reader).run session).1.2.storage = reader.storage ∧
    kept ((action.run.run reader).run session).2

namespace KeepsAt

theorem pure (value : α) : KeepsAt kept reader (Pure.pure value) := fun _ holds => ⟨rfl, holds⟩

theorem throw (error : Error) : KeepsAt kept reader (MonadExcept.throw error : ReaderM α) :=
  fun _ holds => ⟨rfl, holds⟩

theorem bind {action : ReaderM α} {next : α → ReaderM β} (first : KeepsAt kept reader action)
    (rest : ∀ value position, KeepsAt kept ⟨reader.storage, position⟩ (next value)) :
    KeepsAt kept reader (action >>= next) := by
  intro session holds
  have left := first session holds
  simp only [ExceptT.run, StateT.run] at *
  simp only [Bind.bind, ExceptT.bind, ExceptT.mk, StateT.bind, ExceptT.bindCont]
  cases ran : action reader session with
  | mk both session =>
    obtain ⟨outcome, moved⟩ := both
    rw [ran] at left
    obtain ⟨same, holds⟩ := left
    cases outcome with
    | error error => exact ⟨same, holds⟩
    | ok value =>
      have further := rest value moved.position session holds
      rw [← same] at further ⊢
      exact further

theorem get_bind {next : Reader → ReaderM β} (rest : KeepsAt kept reader (next reader)) :
    KeepsAt kept reader (get >>= next) := rest

theorem set (position : Nat) :
    KeepsAt kept reader (MonadStateOf.set (Reader.mk reader.storage position) : ReaderM PUnit) :=
  fun _ holds => ⟨rfl, holds⟩

theorem fetch {action : SessionM α} (keeps : Keeps kept action) (change : Error → Error) :
    KeepsAt kept reader (ExceptT.mk do
      let result ← StateT.lift action.run
      return result.mapError change) :=
  fun session holds => ⟨rfl, keeps session holds⟩

theorem mapM {action : α → ReaderM β} (each : ∀ item position,
    KeepsAt kept ⟨reader.storage, position⟩ (action item)) (items : List α) :
    KeepsAt kept reader (items.mapM action) := by
  induction items generalizing reader with
  | nil => exact pure []
  | cons item rest inductionHypothesis =>
    rw [List.mapM_cons]
    apply bind (each item reader.position)
    intro value position
    apply bind (@inductionHypothesis ⟨reader.storage, position⟩ each)
    intro values position
    exact pure _

end KeepsAt

theorem read_keeps {reader : Reader} (reads : ∀ offset length, Keeps kept (reader.storage.read offset length))
    (count : Nat) : KeepsAt kept reader (read count) := by
  apply KeepsAt.get_bind
  dsimp only
  split
  · exact .pure []
  · apply KeepsAt.bind (.fetch (reads _ _) _)
    intro bytes position
    apply KeepsAt.bind (.set _)
    intro _ _
    exact .pure bytes

theorem exactly_keeps {reader : Reader}
    (reads : ∀ offset length, Keeps kept (reader.storage.read offset length)) (count : Nat) :
    KeepsAt kept reader (exactly count) := by
  apply KeepsAt.bind (read_keeps reads count)
  intro bytes position
  dsimp only
  split
  · exact .throw _
  · exact .pure bytes

theorem toEnd_keeps {reader : Reader}
    (reads : ∀ offset length, Keeps kept (reader.storage.read offset length)) :
    KeepsAt kept reader toEnd := by
  apply KeepsAt.get_bind
  apply KeepsAt.get_bind
  apply KeepsAt.bind (KeepsAt.mapM (fun piece position =>
    @read_keeps kept ⟨reader.storage, position⟩ reads piece) _)
  intro parts position
  exact .pure _

theorem run'_keeps {action : ReaderM α} (keeps : KeepsAt kept reader action) :
    Keeps kept (action.run' reader) := fun session holds => (keeps session holds).2

end ReaderM

/-! ## Steps -/

namespace Workspace

theorem Sound.keeps {α : Type} {w : Workspace} {action : SessionM α} (sound : w.Sound)
    (keeps : Keeps (Remembers w.nodes) action) : (w.left action).Sound :=
  ⟨sound.graph, keeps w.session sound.remembers⟩

theorem Sound.read_keeps {w : Workspace} {node : Storage} (sound : w.Sound) (member : node ∈ w.nodes)
    (offset length : Nat) : Keeps (Remembers w.nodes) (node.read offset length) :=
  (node.read_answers sound.graph member offset length).keeps

section

variable {admits : StorageCipher → Nat → Prop} {first middle last : Workspace}

theorem StepOf.sound (step : StepOf admits first last) (sound : first.Sound) : last.Sound := by
  cases step with
  | memory short => exact sound.add nofun short rfl rfl
  | stream short => exact sound.add nofun short rfl rfl
  | slice member made => exact sound.slice member made
  | cache member made => exact sound.cache member made
  | decrypt member wellMade _ => exact sound.add (by simpa [Storage.children] using member) wellMade rfl rfl
  | concat members short => exact sound.add members short rfl rfl
  | indirect baseMember patchMember wellLaid short =>
    exact sound.add (by simpa [Storage.children] using ⟨baseMember, patchMember⟩)
      ⟨wellLaid, short⟩ rfl rfl
  | verified dataMember hashesMember made => exact sound.verified dataMember hashesMember made
  | @tree _ _ placements padded policy _ member short made =>
    have makes := sound.tree member short placements padded policy
    rw [made] at makes
    exact makes
  | @noTree _ _ placements padded policy _ member short refused =>
    have makes := sound.tree member short placements padded policy
    rw [refused] at makes
    exact makes
  | read member offset length => exact sound.keeps (sound.read_keeps member offset length)
  | validate member => exact sound.keeps (HashLevel.validate_answers sound.graph member).keeps
  | validateTree members => exact sound.keeps (HashTree.validate_answers sound.graph members).keeps
  | readerRead member position count =>
    exact sound.keeps (ReaderM.run'_keeps (ReaderM.read_keeps (sound.read_keeps member) count))
  | readerExactly member position count =>
    exact sound.keeps (ReaderM.run'_keeps (ReaderM.exactly_keeps (sound.read_keeps member) count))
  | readerToEnd member position =>
    exact sound.keeps (ReaderM.run'_keeps (ReaderM.toEnd_keeps (sound.read_keeps member)))

theorem StepsOf.trans (before : StepsOf admits first middle) (after : StepsOf admits middle last) :
    StepsOf admits first last := by
  induction after with
  | refl => exact before
  | step _ next inductionHypothesis => exact .step inductionHypothesis next

theorem StepsOf.sound (steps : StepsOf admits first last) (sound : first.Sound) : last.Sound := by
  induction steps with
  | refl => exact sound
  | step _ next inductionHypothesis => exact next.sound inductionHypothesis

theorem sound_empty : Sound {} where
  graph := ⟨nofun, nofun, nofun, nofun⟩
  remembers := ⟨nofun, nofun, nofun, nofun⟩

theorem sound_of_steps (steps : StepsOf admits {} last) : last.Sound := steps.sound sound_empty

theorem StepOf.nodes_subset (step : StepOf admits first last) : ∀ node ∈ first.nodes, node ∈ last.nodes := by
  cases step <;> intro node member <;> simp_all [addTree]

theorem StepsOf.nodes_subset (steps : StepsOf admits first last) : ∀ node ∈ first.nodes, node ∈ last.nodes := by
  induction steps with
  | refl => exact fun _ member => member
  | step _ next inductionHypothesis =>
    exact fun node member => next.nodes_subset node (inductionHypothesis node member)

end

/-! ## Sums of 64 bits -/

/-- All nodes of a tree fit with the content and the hashes that it starts from. -/
theorem fits_of_levelChain {content : Storage} {policy : Policy} {padded : Bool} {number : Nat} {hashes : Storage}
    {placements : List HashPlacement} {levels : List HashLevel}
    (chain : LevelChain content policy padded number hashes placements levels) (fits : content.Fits)
    (hashesFit : hashes.Fits) : ∀ node ∈ levels.flatMap HashLevel.nodes, node.Fits := by
  induction chain with
  | nil => exact nofun
  | cons windowed positive enough below inductionHypothesis =>
    have dataFits := (Storage.fits_window windowed).mpr fits
    intro node member
    rw [List.flatMap_cons, List.mem_append] at member
    obtain here | deeper := member
    · simp only [HashLevel.nodes, List.mem_cons, List.not_mem_nil, or_false] at here
      obtain rfl | rfl | rfl := here
      · exact ⟨dataFits, hashesFit⟩
      · exact dataFits
      · exact hashesFit
    · exact inductionHypothesis ⟨dataFits, hashesFit⟩ node deeper

/-- Nodes that are made of fitting ones fit. -/
theorem Step.fits {first last : Workspace} (step : Step first last) (fits : ∀ node ∈ first.nodes, node.Fits) :
    ∀ node ∈ last.nodes, node.Fits := by
  -- each step adds one node at most, apart from trees
  have one : ∀ {added : Storage}, added.Fits → ∀ node ∈ added :: first.nodes, node.Fits := fun new =>
    List.forall_mem_cons.mpr ⟨new, fits⟩
  cases step with
  | memory | stream => exact one trivial
  | slice member made => exact one ((Storage.fits_window made).mpr (fits _ member))
  | cache member made =>
    have below := fits _ member
    cases made
    exact one below
  | decrypt member _ admitted => exact one ⟨admitted, fits _ member⟩
  | concat members => exact one (Storage.allFit_iff.mpr fun segment among => fits segment (members segment among))
  | indirect baseMember patchMember => exact one ⟨fits _ baseMember, fits _ patchMember⟩
  | verified dataMember hashesMember made =>
    obtain ⟨rfl, -⟩ := HashLevel.of_make made
    exact one ⟨fits _ dataMember, fits _ hashesMember⟩
  | tree member short made =>
    intro node among
    obtain new | old := List.mem_append.mp among
    · exact fits_of_levelChain (levelChain_of_make made) (fits _ member) trivial node new
    · exact fits node old
  | noTree | read | validate | validateTree | readerRead | readerExactly | readerToEnd => exact fits

theorem Steps.fits {first last : Workspace} (steps : Steps first last) (fits : ∀ node ∈ first.nodes, node.Fits) :
    ∀ node ∈ last.nodes, node.Fits := by
  induction steps with
  | refl => exact fits
  | step _ next inductionHypothesis => exact Step.fits next inductionHypothesis

theorem fits_of_steps {w : Workspace} (steps : Steps {} w) : ∀ node ∈ w.nodes, node.Fits := steps.fits nofun

end Workspace

end SealedContent
