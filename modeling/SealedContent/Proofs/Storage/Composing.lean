import SealedContent.Storage.Basic

/-! # Relations between computations

How a range is served, deciphered and relocated is stated in any monad that can fail. `Composes` says of a relation
between the computations of two monads that it goes along with values, errors and steps; then it goes along with all of
these rules, if it does for the nodes below.
-/

namespace SealedContent

variable {m n : Type → Type} [Monad m] [MonadExceptOf Error m] [Monad n] [MonadExceptOf Error n]

/-- A relation between the computations of two monads that goes along with values, errors and steps. -/
structure Composes (related : ∀ {α : Type}, m α → n α → Prop) : Prop where
  pure : ∀ {α : Type} (value : α), related (Pure.pure value : m α) (Pure.pure value)
  throw : ∀ {α : Type} (error : Error), related (MonadExcept.throw error : m α) (MonadExcept.throw error)
  bind : ∀ {α β : Type} {first : m α} {other : n α} {next : α → m β} {otherNext : α → n β}, related first other →
    (∀ value, related (next value) (otherNext value)) → related (first >>= next) (other >>= otherNext)

namespace Composes

variable {related : ∀ {α : Type}, m α → n α → Prop} (composes : Composes (m := m) (n := n) related)
include composes

theorem ofExcept {α : Type} (outcome : Except Error α) :
    related (MonadExcept.ofExcept outcome : m α) (MonadExcept.ofExcept outcome) := by
  cases outcome with
  | ok value => exact composes.pure value
  | error error => exact composes.throw error

theorem mapM [LawfulMonad m] [LawfulMonad n] {α β : Type} {action : α → m β} {other : α → n β}
    (each : ∀ item, related (action item) (other item)) (items : List α) :
    related (items.mapM action) (items.mapM other) := by
  induction items with
  | nil => exact composes.pure []
  | cons item rest inductionHypothesis =>
    rw [List.mapM_cons, List.mapM_cons]
    refine composes.bind (each item) fun value => ?_
    exact composes.bind inductionHypothesis fun values => composes.pure (value :: values)

/-! ### Serving a range -/

theorem ranged {size offset length : Nat} {body : m Bytes} {other : n Bytes} (inside : related body other) :
    related (SealedContent.ranged size offset length body) (SealedContent.ranged size offset length other) := by
  simp only [SealedContent.ranged]
  split
  · exact composes.throw _
  · split
    · exact composes.pure _
    · exact inside

theorem readUnits {inner : Fetch m} {other : Fetch n} (below : ∀ o l, related (inner o l) (other o l))
    (name : String) (unit size : Nat) (decrypt : Nat → Bytes → Except Error Bytes) (offset length : Nat) :
    related (SealedContent.readUnits name unit size inner decrypt offset length)
      (SealedContent.readUnits name unit size other decrypt offset length) := by
  have decrypted := composes.bind (below (offset / unit * unit)
    ((offset + length + (unit - 1)) / unit * unit - offset / unit * unit)) fun bytes =>
      composes.bind (composes.ofExcept (decrypt (offset / unit * unit) bytes)) fun plain =>
        composes.pure (Bytes.window plain (offset - offset / unit * unit) length)
  simp only [SealedContent.readUnits]
  split
  · exact composes.throw _
  · split
    · exact composes.throw _
    · exact decrypted

theorem readDecrypted {inner : Fetch m} {other : Fetch n} (below : ∀ o l, related (inner o l) (other o l))
    (cipher : StorageCipher) (size offset length : Nat) :
    related (SealedContent.readDecrypted cipher size inner offset length)
      (SealedContent.readDecrypted cipher size other offset length) := by
  cases cipher with
  | ctr key counter => exact composes.bind (below _ _) fun _ => composes.pure _
  | generations key upper start table => exact composes.bind (below _ _) fun _ => composes.ofExcept _
  | xts key sectorSize first =>
    simp only [SealedContent.readDecrypted]
    exact composes.readUnits below _ _ _ _ _ _
  | ecb key =>
    simp only [SealedContent.readDecrypted]
    exact composes.readUnits below _ _ _ _ _ _

theorem readRelocated {base patch : Fetch m} {otherBase otherPatch : Fetch n} (table : BucketTree Relocation)
    (fromBase : ∀ o l, related (base o l) (otherBase o l))
    (fromPatch : ∀ o l, related (patch o l) (otherPatch o l)) (offset length : Nat) :
    related (SealedContent.readRelocated table base patch offset length)
      (SealedContent.readRelocated table otherBase otherPatch offset length) := by
  unfold SealedContent.readRelocated
  split
  · exact composes.pure _
  · split
    · exact composes.throw _
    · next entry last _ =>
      -- both sides choose by the number of the source alone
      have chosen : (entry.choose? base patch = none ∧ entry.choose? otherBase otherPatch = none) ∨
          ∃ source other, entry.choose? base patch = some source ∧ entry.choose? otherBase otherPatch = some other ∧
            ∀ o l, related (source o l) (other o l) := by
        simp only [Relocation.choose?]
        split
        · exact .inr ⟨_, _, rfl, rfl, fromBase⟩
        · exact .inr ⟨_, _, rfl, rfl, fromPatch⟩
        · exact .inl ⟨rfl, rfl⟩
      obtain ⟨none, otherNone⟩ | ⟨source, other, some, otherSome, below⟩ := chosen
      · rw [none, otherNone]
        exact composes.throw _
      · rw [some, otherSome]
        dsimp only
        split
        · exact composes.throw _
        · split
          · exact composes.throw _
          · refine composes.bind (below _ _) fun _ => ?_
            exact composes.bind (readRelocated table fromBase fromPatch _ _) fun _ => composes.pure _
termination_by length
decreasing_by omega

end Composes

end SealedContent
