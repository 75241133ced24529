import SealedContent.Proofs.Storage.Keeping

/-! # What reads cannot undo

A property is `Lasting` if it survives any change to the blocks of a table, any verdict that is recorded, and any
warning. Every read and every validation keeps it, whatever it gives: `Storage.read_lasts`,
`HashLevel.validate_lasts`. That a block has a verdict is such a property, so that after a validation all blocks have
one: `HashTree.validate_decides`.
-/

namespace SealedContent

/-- A property of sessions that no read takes away. -/
structure Lasting (kept : Session → Prop) : Prop where
  modifyTable : ∀ {session : Session} (table : Nat) (change : CacheTable → CacheTable), kept session →
    kept (session.modifyTable table change)
  record : ∀ {session : Session} (cell block : Nat) {new : Validity}, new ≠ .unchecked → kept session →
    kept (session.record cell block new)
  logged : ∀ {session : Session} (warning : Warning), kept session → kept (session.logged warning)

variable {kept : Session → Prop} (lasting : Lasting kept)
include lasting

theorem cachedBlock_lasts {inner : Fetch SessionM} (below : ∀ o n, Keeps kept (inner o n))
    (table blockSize capacity size block : Nat) : Keeps kept (cachedBlock table blockSize capacity size inner block) :=
  cachedBlock_keeps (fun _ => True) (fun _ _ => trivial) (fun _ => trivial) below
    fun change _ holds => lasting.modifyTable table change holds

theorem checkedBlock_lasts {data hashes : Fetch SessionM} (fromData : ∀ o n, Keeps kept (data o n))
    (fromHashes : ∀ o n, Keeps kept (hashes o n)) (cell : Nat) (check : BlockCheck) (size block : Nat) :
    Keeps kept (checkedBlock cell check size data hashes block) :=
  checkedBlock_keeps (fun _ => True) (fun _ _ => trivial) (fun _ => trivial) fromData fromHashes
    fun checked _ holds => lasting.record cell block checked holds

theorem Lasting.keeping {among : Storage → Prop}
    (closed : ∀ {node}, among node → ∀ child ∈ node.children, among child) : Keeping among kept where
  closed := closed
  cached _ below := cache_keeps fun block _ => cachedBlock_lasts lasting below _ _ _ _ block
  checked _ fromData fromHashes block _ := checkedBlock_lasts lasting fromData fromHashes _ _ _ block
  logged := lasting.logged

/-- A read keeps what no read takes away. -/
theorem Storage.read_lasts (node : Storage) (offset length : Nat) : Keeps kept (node.read offset length) :=
  node.read_keeping (lasting.keeping fun _ _ _ => trivial : Keeping (fun _ => True) kept) trivial offset length

theorem HashLevel.checkBlock_lasts (level : HashLevel) (block : Nat) : Keeps kept (level.checkBlock block) :=
  checkedBlock_lasts lasting (level.data.read_lasts lasting) (level.hashes.read_lasts lasting) _ _ _ _

theorem HashLevel.validate_lasts (level : HashLevel) : Keeps kept level.validate :=
  validate_keeping (lasting.keeping fun _ _ _ => trivial : Keeping (fun _ => True) kept) trivial

omit lasting

/-! ## Verdicts -/

/-- There are verdicts with this number. -/
def Session.HasCell (session : Session) (cell : Nat) : Prop := cell < session.verdicts.size

/-- A block has a verdict. -/
def Session.Decided (session : Session) (cell block : Nat) : Prop :=
  session.HasCell cell ∧ (session.verdictsOf cell).verdict block ≠ .unchecked

variable {cell block : Nat}

theorem Session.decided_iff {session : Session} :
    session.Decided cell block ↔ (session.verdictsOf cell).verdict block ≠ .unchecked := by
  refine and_iff_right_of_imp fun decided => ?_
  by_contra missing
  rw [HasCell, Nat.not_lt] at missing
  refine decided ?_
  rw [verdictsOf, Array.getD_eq_getD_getElem?, Array.getElem?_eq_none missing]
  rfl

theorem hasCell_lasting : Lasting (·.HasCell cell) where
  modifyTable _ _ holds := holds
  record other block new _ holds := by simpa [Session.HasCell, Session.record] using holds
  logged _ holds := holds

theorem Validity.record_ne_unchecked {kept new : Validity} (checked : new ≠ .unchecked) :
    kept.record new ≠ .unchecked := by
  simp only [record]
  split
  · decide
  · exact checked

theorem Session.decided_record {session : Session} (made : session.HasCell cell) {new : Validity}
    (checked : new ≠ .unchecked) : (session.record cell block new).Decided cell block := by
  refine ⟨hasCell_lasting.record cell block checked made, ?_⟩
  rw [verdictsOf_record session made, if_pos rfl, Verdicts.verdict_record, if_pos rfl]
  exact Validity.record_ne_unchecked checked

/-- A verdict is never taken back. -/
theorem decided_lasting : Lasting (·.Decided cell block) where
  modifyTable _ _ holds := holds
  record {session} other otherBlock new checked holds := by
    obtain ⟨made, decided⟩ := holds
    refine ⟨hasCell_lasting.record _ _ checked made, ?_⟩
    by_cases same : cell = other
    · subst same
      rw [Session.verdictsOf_record session made, if_pos rfl, Verdicts.verdict_record]
      split
      · exact Validity.record_ne_unchecked checked
      · exact decided
    · rwa [Session.verdictsOf_record_ne _ same]
  logged _ holds := holds

/-- A block that was checked has a verdict. -/
theorem HashLevel.checkBlock_decides {level : HashLevel} {session : Session} {block : Nat} {checked : Bytes × Validity}
    (made : session.HasCell level.cell) (gives : (level.checkBlock block).result session = .ok checked) :
    ((level.checkBlock block).after session).Decided level.cell block := by
  have kept : ∀ (node : Storage) (o n : Nat), Keeps (·.HasCell level.cell) (node.read o n) :=
    fun node => node.read_lasts hasCell_lasting
  simp only [checkBlock, checkedBlock] at gives ⊢
  obtain ⟨bytes, read, gives⟩ := SessionM.bind_eq_ok gives
  have made := kept level.data (block * level.check.blockSize)
    (blockLength level.data.size level.check.blockSize block) session made
  rw [SessionM.after_bind_ok read]
  rw [SessionM.result_bind_ok (SessionM.result_get _)] at gives
  rw [SessionM.after_bind_ok (SessionM.result_get _)]
  simp only [SessionM.after_get] at gives ⊢
  split
  -- it had one before
  · next known => exact ⟨made, known⟩
  · next unknown =>
    rw [if_neg unknown] at gives
    obtain ⟨hash, entry, gives⟩ := SessionM.bind_eq_ok gives
    rw [SessionM.after_bind_ok entry]
    exact Session.decided_record (kept level.hashes _ _ _ made) (level.check.verdict_ne_unchecked bytes hash)

/-- All blocks of a level have a verdict. -/
def HashLevel.Decided (level : HashLevel) (session : Session) : Prop :=
  ∀ block < level.blockCount, session.Decided level.cell block

theorem HashLevel.decided_lasting (level : HashLevel) : Lasting level.Decided where
  modifyTable table change holds block inside :=
    SealedContent.decided_lasting.modifyTable table change (holds block inside)
  record cell other _ checked holds block inside :=
    SealedContent.decided_lasting.record cell other checked (holds block inside)
  logged warning holds block inside := SealedContent.decided_lasting.logged warning (holds block inside)

theorem HashLevel.validate_decides {level : HashLevel} {session : Session} {verdict : Validity}
    (made : session.HasCell level.cell) (gives : level.validate.result session = .ok verdict) :
    level.Decided (level.validate.after session) := by
  simp only [validate] at gives ⊢
  obtain ⟨verdicts, checked, gives⟩ := SessionM.bind_eq_ok gives
  rw [SessionM.after_bind_ok checked]
  intro block inside
  refine @SessionM.marks_of_mapM _ _ (·.HasCell level.cell) (fun block session => session.Decided level.cell block)
    _ _ ?_ ?_ ?_ _ _ made checked block (List.mem_range.mpr inside)
  · exact fun block _ => .bind (level.checkBlock_lasts hasCell_lasting block) fun _ => .pure _
  · exact fun block _ other => .bind (level.checkBlock_lasts SealedContent.decided_lasting block) fun _ => .pure _
  · intro block _ session verdict made gives
    obtain ⟨found, gives, -⟩ := SessionM.bind_eq_ok gives
    rw [SessionM.after_bind_ok gives]
    exact checkBlock_decides made gives

/-- After a validation every block of every level has a verdict. -/
theorem HashTree.validate_decides {tree : HashTree} {session : Session} {verdict : Validity}
    (made : ∀ level ∈ tree.levels, session.HasCell level.cell)
    (gives : tree.validate.result session = .ok verdict) :
    ∀ level ∈ tree.levels, level.Decided (tree.validate.after session) := by
  simp only [validate] at gives ⊢
  obtain ⟨verdicts, checked, gives⟩ := SessionM.bind_eq_ok gives
  rw [SessionM.after_bind_ok checked]
  refine @SessionM.marks_of_mapM _ _ (fun session => ∀ level ∈ tree.levels, session.HasCell level.cell)
    HashLevel.Decided _ _ ?_ ?_ ?_ _ _ made checked
  · exact fun level _ session made other member => level.validate_lasts hasCell_lasting session (made other member)
  · exact fun level _ other => level.validate_lasts other.decided_lasting
  · exact fun level member session verdict made gives => HashLevel.validate_decides (made level member) gives

end SealedContent
