import SealedContent.Proofs.Storage.Reads

/-! # Reads without a history

What was read, validated or made since a node was there plays no part in what its next read gives:
`read_of_histories`.
-/

namespace SealedContent

/-- After any two histories of one workspace a read of a node gives the same bytes or the same error. -/
theorem read_of_histories {admits : StorageCipher → Nat → Prop} {w left right : Workspace}
    (reached : Workspace.StepsOf admits {} w) (first : Workspace.StepsOf admits w left)
    (second : Workspace.StepsOf admits w right) {node : Storage}
    (member : node ∈ w.nodes) (offset length : Nat) :
    (node.read offset length).result left.session = (node.read offset length).result right.session := by
  have sound := Workspace.sound_of_steps reached
  -- each history leaves a session that remembers nothing but what reads give
  have answer : ∀ {after : Workspace}, Workspace.StepsOf admits w after →
      (node.read offset length).result after.session = node.outcome offset length := by
    intro after steps
    have soundAfter := steps.sound sound
    have memberAfter := steps.nodes_subset node member
    exact (node.read_answers soundAfter.graph memberAfter offset length _ soundAfter.remembers).1
  rw [answer first, answer second]

/-- A cache over five bytes that nothing was read through. -/
def freshCacheOfFive : Workspace :=
  ((Workspace.add {} (.memory #[1, 2, 3, 4, 5])).left (Storage.cached (.memory #[1, 2, 3, 4, 5]) 2 1)).add
    cacheOfFive

/-- One history fills the table of the cache, the other ends with a read that fails. -/
theorem read_of_histories_cacheOfFive :
    Workspace.Steps {} freshCacheOfFive ∧
    Workspace.Steps freshCacheOfFive (freshCacheOfFive.left (cacheOfFive.read 4 1)) ∧
    Workspace.Steps freshCacheOfFive (freshCacheOfFive.left (cacheOfFive.read 4 2)) ∧
    cacheOfFive ∈ freshCacheOfFive.nodes ∧
    (cacheOfFive.read 4 1).after freshCacheOfFive.session ≠ (cacheOfFive.read 4 2).after freshCacheOfFive.session ∧
    (cacheOfFive.read 1 3).result (freshCacheOfFive.left (cacheOfFive.read 4 1)).session =
      (cacheOfFive.read 1 3).result (freshCacheOfFive.left (cacheOfFive.read 4 2)).session := by
  have stored : Workspace.Steps {} (Workspace.add {} (.memory #[1, 2, 3, 4, 5])) :=
    .step .refl (.memory (by decide))
  have reached : Workspace.Steps {} freshCacheOfFive := .step stored (.cache (.head _) rfl)
  have member : cacheOfFive ∈ freshCacheOfFive.nodes := .head _
  have filled : Workspace.Steps freshCacheOfFive (freshCacheOfFive.left (cacheOfFive.read 4 1)) :=
    .step .refl (.read member 4 1)
  have failed : Workspace.Steps freshCacheOfFive (freshCacheOfFive.left (cacheOfFive.read 4 2)) :=
    .step .refl (.read member 4 2)
  refine ⟨reached, filled, failed, member, ?_, read_of_histories reached filled failed member 1 3⟩
  intro same
  have tables := congrArg Session.tables same
  revert tables
  decide +kernel

end SealedContent
