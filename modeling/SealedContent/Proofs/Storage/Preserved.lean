import SealedContent.Proofs.Storage.Keeping
import SealedContent.Proofs.Storage.Workspace

/-! # Properties that steps preserve

A step makes nodes, uses them, or both. What is made starts with an empty memory, so that all tables and verdicts
stay the same (`Workspace.Grown`), and what is used is read or checked. A property of workspaces that both preserve
(`Workspace.Preserved`) is preserved by every run: `Workspace.StepsOf.preserves`.
-/

namespace SealedContent

/-! ## Making nodes -/

/-- A session that remembers what another one does. What was never made has an empty memory. -/
structure Session.Same (session other : Session) : Prop where
  table : ∀ table, session.table table = other.table table
  verdicts : ∀ cell, session.verdictsOf cell = other.verdictsOf cell

namespace Session.Same

variable {first second third : Session}

theorem refl (session : Session) : session.Same session := ⟨fun _ => rfl, fun _ => rfl⟩

theorem trans (before : second.Same first) (after : third.Same second) : third.Same first :=
  ⟨fun table => (after.table table).trans (before.table table),
    fun cell => (after.verdicts cell).trans (before.verdicts cell)⟩

theorem getD_push {α : Type} (items : Array α) (empty : α) (index : Nat) :
    (items.push empty).getD index empty = items.getD index empty := by
  simp only [Array.getD_eq_getD_getElem?, Array.getElem?_push]
  split
  · next new => simp [new]
  · rfl

theorem newTable (session : Session) : Same { session with tables := session.tables.push [] } session :=
  ⟨getD_push session.tables [], fun _ => rfl⟩

theorem newVerdicts (session : Session) : Same { session with verdicts := session.verdicts.push #[] } session :=
  ⟨fun _ => rfl, getD_push session.verdicts #[]⟩

end Session.Same

open Session (Same)

variable {session : Session}

/-- A window is a slice, of its parent or of what the parent looks at. -/
theorem slice_of_window {parent window : Storage} {start size : Nat} (made : parent.window start size = .ok window) :
    ∃ below first, window = .slice below first size := by
  simp only [Storage.window] at made
  split at made
  · cases made
  · split at made
    all_goals cases made; exact ⟨_, _, rfl⟩

theorem cell?_window {parent window : Storage} {start size : Nat} (made : parent.window start size = .ok window) :
    window.cell? = none := by
  obtain ⟨_, _, rfl⟩ := slice_of_window made
  rfl

theorem HashLevel.make_same (data hashes : Storage) (check : BlockCheck) (session : Session) :
    ((make data hashes check).after session).Same session := by
  cases made : (make data hashes check).result session with
  | ok level =>
    obtain ⟨-, -, -, after⟩ := of_make made
    rw [after]
    exact .newVerdicts session
  | error error =>
    rw [after_make_error made]
    exact .refl session

theorem HashTree.chain_same {content : Storage} {policy : Policy} {padded : Bool} (placements : List HashPlacement) :
    ∀ (number : Nat) (hashes : Storage),
      Keeps (Same · session) (chain content policy padded number hashes placements) := by
  induction placements with
  | nil => exact fun _ _ => .pure _
  | cons placement rest inductionHypothesis =>
    intro number hashes
    simp only [chain]
    refine .bind (fun _ same => same) fun data => ?_
    refine .bind (fun _ same => same.trans (HashLevel.make_same ..)) fun level => ?_
    exact .bind (inductionHypothesis _ _) fun _ => .pure _

/-- The levels of a chain have new numbers. -/
theorem HashTree.chain_fresh {content : Storage} {policy : Policy} {padded : Bool} (placements : List HashPlacement) :
    ∀ {number : Nat} {hashes : Storage} {session : Session} {levels : List HashLevel},
    (chain content policy padded number hashes placements).result session = .ok levels →
    ∀ level : HashLevel, level.storage ∈ levels.flatMap HashLevel.nodes →
      level.storage = hashes ∨ session.verdicts.size ≤ level.cell := by
  induction placements with
  | nil =>
    rintro number hashes session levels ⟨⟩ level none
    cases none
  | cons placement rest inductionHypothesis =>
    intro number hashes session levels made level member
    simp only [chain] at made
    obtain ⟨data, windowed, made⟩ := SessionM.bind_eq_ok made
    obtain ⟨first, firstMade, made⟩ := SessionM.bind_eq_ok made
    obtain ⟨others, othersMade, made⟩ := SessionM.bind_eq_ok made
    obtain ⟨rfl, -, -, after⟩ := HashLevel.of_make firstMade
    cases made
    rw [SessionM.after_lift] at after othersMade
    rw [after] at othersMade
    simp only [List.flatMap_cons, HashLevel.nodes, List.mem_append, List.mem_cons, List.not_mem_nil, or_false] at member
    obtain (same | same | same) | later := member
    · have cell : some level.cell = some session.verdicts.size := congrArg Storage.cell? same
      exact .inr (Nat.le_of_eq (Option.some.inj cell).symm)
    -- a window is no level
    · have cell := congrArg Storage.cell? same
      rw [cell?_window windowed] at cell
      cases cell
    · exact .inl same
    · obtain same | new := inductionHypothesis othersMade level later
      · have cell : some level.cell = some session.verdicts.size := congrArg Storage.cell? same
        exact .inr (Nat.le_of_eq (Option.some.inj cell).symm)
      · rw [Array.size_push] at new
        exact .inr (by omega)

namespace Workspace

/-- Nodes were made: all is remembered as before, and no block of a new level was checked. -/
structure Grown (first last : Workspace) : Prop where
  same : last.session.Same first.session
  fresh : ∀ level : HashLevel, level.storage ∈ last.nodes →
    level.storage ∈ first.nodes ∨ last.session.verdictsOf level.cell = #[]

namespace Grown

variable {w : Workspace} {node : Storage}

/-- A node that is no level. -/
theorem add (session : Session) (same : session.Same w.session) (noLevel : node.cell? = none) :
    w.Grown ⟨node :: w.nodes, session⟩ where
  same := same
  fresh level member := by
    obtain same | old := List.mem_cons.mp member
    · have cell : some level.cell = node.cell? := congrArg Storage.cell? same
      rw [noLevel] at cell
      cases cell
    · exact .inl old

/-- No node. -/
theorem left {last : Workspace} (same : last.session.Same w.session) (fewer : ∀ node ∈ last.nodes, node ∈ w.nodes) :
    w.Grown last := ⟨same, fun _ member => .inl (fewer _ member)⟩

theorem verdictsOf_new {session : Session} (same : session.Same w.session) {cell : Nat}
    (new : w.session.verdicts.size ≤ cell) : session.verdictsOf cell = #[] := by
  rw [same.verdicts, Session.verdictsOf, Array.getD_eq_getD_getElem?, Array.getElem?_eq_none new]
  rfl

theorem verified {data hashes : Storage} {check : BlockCheck} {level : HashLevel}
    (made : (HashLevel.make data hashes check).result w.session = .ok level) :
    w.Grown ((w.left (HashLevel.make data hashes check)).add level.storage) where
  same := HashLevel.make_same ..
  fresh other member := by
    obtain ⟨rfl, -⟩ := HashLevel.of_make made
    obtain same | old := List.mem_cons.mp member
    · have cell : some other.cell = some w.session.verdicts.size := congrArg Storage.cell? same
      exact .inr (verdictsOf_new (HashLevel.make_same ..) (Nat.le_of_eq (Option.some.inj cell).symm))
    · exact .inl old

end Grown

/-- The nodes of a tree are made, and then its first level is checked, if at all. What is left is a workspace with more
    nodes in between. -/
theorem Sound.make_tree {w : Workspace} (sound : w.Sound) {content : Storage} {master : Bytes}
    (member : content ∈ w.nodes) (short : master.length < UInt64.size) (placements : List HashPlacement) (padded : Bool)
    (policy : Policy) : ∃ made : Workspace, made.Sound ∧ w.Grown made ∧ (∀ node ∈ w.nodes, node ∈ made.nodes) ∧
      (∀ tree, (HashTree.make content master placements padded policy).result w.session = .ok tree →
        ∀ node ∈ tree.nodes, node ∈ made.nodes) ∧
      ((HashTree.make content master placements padded policy).after w.session = made.session ∨
        ∃ level : HashLevel, level.storage ∈ made.nodes ∧
          (HashTree.make content master placements padded policy).after w.session =
            (HashTree.openLevel level).after made.session) := by
  have masterSound : (w.add (.ofBytes master)).Sound :=
    sound.add (fun _ none => nomatch none) (by simpa [Storage.ofBytes, Storage.WellMade] using short) rfl rfl
  have built := @Sound.chain content policy padded placements _ 1 _ masterSound (.tail _ member) (.head _)
  have same := @HashTree.chain_same w.session content policy padded placements 1 (.ofBytes master) _ (.refl _)
  simp only [session_add] at built
  simp only [HashTree.make]
  cases gives : (HashTree.chain content policy padded 1 (.ofBytes master) placements).result w.session with
  | error error =>
    rw [gives] at built
    rw [SessionM.after_bind_error gives, SessionM.result_bind_error gives]
    refine ⟨_, built, .add _ same rfl, fun node there => .tail _ there, fun tree opened => ?_, .inl rfl⟩
    cases opened
  | ok levels =>
    rw [gives] at built
    rw [SessionM.after_bind_ok gives, SessionM.result_bind_ok gives]
    refine ⟨_, built, ⟨same, fun level among => ?_⟩, fun node there => List.mem_append_right _ (.tail _ there), ?_⟩
    -- a level is one of the new ones, or it was there; the node of the master hash is no level
    · obtain new | old := List.mem_append.mp among
      · obtain master | new := HashTree.chain_fresh placements gives level new
        · cases master
        · exact .inr (Grown.verdictsOf_new same new)
      · obtain master | old := List.mem_cons.mp old
        · cases master
        · exact .inl old
    · cases levels with
      | nil =>
        refine ⟨fun tree opened => ?_, .inl rfl⟩
        cases opened
      | cons first rest =>
        have firstMember : first.storage ∈ (first :: rest).flatMap HashLevel.nodes := by simp [HashLevel.nodes]
        -- the first level is opened under any policy that checks at all
        by_cases unchecked : policy = .off
        · simp only [unchecked, ne_eq, not_true_eq_false, if_false]
          refine ⟨?_, .inl rfl⟩
          rintro _ ⟨⟩ node among
          exact List.mem_append_left _ among
        · simp only [ne_eq, unchecked, not_false_eq_true, if_true]
          refine ⟨fun tree opened node among => ?_, .inr ⟨first, List.mem_append_left _ firstMember, ?_⟩⟩
          · obtain ⟨_, -, opened⟩ := SessionM.bind_eq_ok opened
            cases opened
            exact List.mem_append_left _ among
          · cases checked : (HashTree.openLevel first).result _ with
            | error error => rw [SessionM.after_bind_error checked]
            | ok none => rw [SessionM.after_bind_ok checked]; rfl

/-! ## Steps -/

/-- A property that is preserved while the nodes it is about are there. -/
structure Preserved (base : List Storage) (kept : Workspace → Prop) : Prop where
  made : ∀ {first last : Workspace}, kept first → last.Sound → (∀ node ∈ base, node ∈ last.nodes) →
    first.Grown last → kept last
  used : ∀ {w : Workspace}, w.Sound → (∀ node ∈ base, node ∈ w.nodes) →
    Keeping (· ∈ w.nodes) fun session => kept ⟨w.nodes, session⟩

namespace Preserved

variable {base : List Storage} {kept : Workspace → Prop} {first last w : Workspace}

/-- A tree that was made, or whose first level was refused. -/
theorem tree (preserved : Preserved base kept) (sound : w.Sound) (there : ∀ node ∈ base, node ∈ w.nodes)
    (holds : kept w) {content : Storage} {master : Bytes} (member : content ∈ w.nodes)
    (short : master.length < UInt64.size)
    {placements : List HashPlacement} {padded : Bool} {policy : Policy} (lastSound : last.Sound)
    (later : ∀ node ∈ w.nodes, node ∈ last.nodes)
    (same : last.session = (HashTree.make content master placements padded policy).after w.session)
    (nodes : ∀ node ∈ last.nodes, node ∈ w.nodes ∨ ∃ tree,
      (HashTree.make content master placements padded policy).result w.session = .ok tree ∧ node ∈ tree.nodes) :
    kept last := by
  obtain ⟨middle, middleSound, grown, more, whole, after⟩ := sound.make_tree member short placements padded policy
  have thereMiddle : ∀ node ∈ base, node ∈ middle.nodes := fun node among => more node (there node among)
  have thereLast : ∀ node ∈ base, node ∈ last.nodes := fun node among => later node (there node among)
  have fewer : ∀ node ∈ last.nodes, node ∈ middle.nodes := by
    intro node among
    obtain old | ⟨tree, made, new⟩ := nodes node among
    · exact more node old
    · exact whole tree made node new
  have holdsMiddle := preserved.made holds middleSound thereMiddle grown
  -- nodes are made, then perhaps one is used, and of the nodes made only those that are left count
  obtain after | ⟨level, levelMember, after⟩ := after
  · exact preserved.made holdsMiddle lastSound thereLast (.left (by rw [same, after]; exact .refl _) fewer)
  · have opened := HashTree.openLevel_keeping (preserved.used middleSound thereMiddle) levelMember _ holdsMiddle
    exact preserved.made opened lastSound thereLast (.left (by rw [same, after]; exact .refl _) fewer)

end Preserved

theorem StepOf.preserves {admits : StorageCipher → Nat → Prop} {base : List Storage} {kept : Workspace → Prop}
    {first last : Workspace} (preserved : Preserved base kept) (step : StepOf admits first last) (sound : first.Sound)
    (there : ∀ node ∈ base, node ∈ first.nodes) (holds : kept first) : kept last := by
  have lastSound := step.sound sound
  have thereLast : ∀ node ∈ base, node ∈ last.nodes := fun node member => step.nodes_subset node (there node member)
  have made := preserved.made holds lastSound thereLast
  have keeping := preserved.used sound there
  have reads : ∀ {node}, node ∈ first.nodes → ∀ offset length,
      Keeps (fun session => kept ⟨first.nodes, session⟩) (node.read offset length) :=
    fun member => Storage.read_keeping keeping _ member
  cases step with
  | memory | stream | decrypt | concat | indirect => exact made (.add _ (.refl _) rfl)
  | slice member windowed => exact made (.add _ (.refl _) (cell?_window windowed))
  | cache member cached =>
    cases cached
    exact made (.add _ (.newTable _) rfl)
  | verified dataMember hashesMember levelMade => exact made (.verified levelMade)
  | tree member short treeMade =>
    refine preserved.tree sound there holds member short lastSound (fun _ => List.mem_append_right _) rfl ?_
    intro _ among
    exact (List.mem_append.mp among).symm.imp_right fun new => ⟨_, treeMade, new⟩
  | noTree member short =>
    exact preserved.tree sound there holds member short lastSound (fun _ member => member) rfl fun _ => .inl
  | read member offset length => exact reads member offset length _ holds
  | validate member => exact HashLevel.validate_keeping keeping member _ holds
  | validateTree members => exact HashTree.validate_keeping keeping members _ holds
  | readerRead member position count =>
    exact ReaderM.run'_keeps (ReaderM.read_keeps (reads member) count) _ holds
  | readerExactly member position count =>
    exact ReaderM.run'_keeps (ReaderM.exactly_keeps (reads member) count) _ holds
  | readerToEnd member position =>
    exact ReaderM.run'_keeps (ReaderM.toEnd_keeps (reads member)) _ holds

theorem StepsOf.preserves {admits : StorageCipher → Nat → Prop} {base : List Storage} {kept : Workspace → Prop}
    {first last : Workspace} (preserved : Preserved base kept) (steps : StepsOf admits first last) (sound : first.Sound)
    (there : ∀ node ∈ base, node ∈ first.nodes) (holds : kept first) : kept last := by
  induction steps with
  | refl => exact holds
  | step before next inductionHypothesis =>
    exact next.preserves preserved (before.sound sound)
      (fun node member => before.nodes_subset node (there node member)) inductionHypothesis

end Workspace

end SealedContent
