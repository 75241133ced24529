import SealedContent.Proofs.Session
import SealedContent.Proofs.Storage.Composing

/-! # Threads that share a session

A thread does nothing to a session but in turns of its own. In a turn it holds one lock from the beginning to the end,
so that nobody sees what is in between; storages never change, and need no lock. Between two turns others may have
theirs. `Turns` is what a thread does, `ThreadM` the computations of threads that may fail, and `ThreadM.alone` runs one
with nobody in between. What a thread `Does` alone is compared with computations in one session.
-/

namespace SealedContent

/-! ## Turns -/

/-- What a thread does. In a turn it sees the session and changes it, and goes on with what it saw. -/
inductive Turns (α : Type) where
  | done (value : α)
  | locked (change : Session → Session) (next : Session → Turns α)

namespace Turns

variable {α β : Type}

def bind : Turns α → (α → Turns β) → Turns β
  | done value, after => after value
  | locked change next, after => locked change fun session => (next session).bind after

instance : Monad Turns where
  pure := done
  bind := bind

@[simp] theorem locked_bind (change : Session → Session) (next : Session → Turns α) (after : α → Turns β) :
    locked change next >>= after = locked change fun session => next session >>= after := rfl

theorem bind_done (turns : Turns α) : turns >>= done = turns := by
  induction turns with
  | done value => rfl
  | locked change next inductionHypothesis =>
    rw [locked_bind]
    exact congrArg (locked change) (funext inductionHypothesis)

theorem bind_assoc {γ : Type} (turns : Turns α) (after : α → Turns β) (last : β → Turns γ) :
    turns >>= after >>= last = turns >>= fun value => after value >>= last := by
  induction turns with
  | done value => rfl
  | locked change next inductionHypothesis =>
    simp only [locked_bind]
    exact congrArg (locked change) (funext inductionHypothesis)

instance : LawfulMonad Turns := LawfulMonad.mk' Turns bind_done (fun _ _ => rfl) bind_assoc

/-- All turns one after the other, with nobody in between. -/
def alone : Turns α → StateM Session α
  | done value => pure value
  | locked change next => fun session => (next session).alone (change session)

theorem alone_bind (turns : Turns α) (after : α → Turns β) :
    (turns >>= after).alone = turns.alone >>= fun value => (after value).alone := by
  induction turns with
  | done value => rfl
  | locked change next inductionHypothesis =>
    funext session
    exact congrFun (inductionHypothesis session) (change session)

end Turns

/-! ## Threads -/

/-- What a thread does until it fails or comes to a value. -/
abbrev ThreadM := ExceptT Error Turns

namespace ThreadM

variable {α β : Type}

/-- One turn: the session is changed, and what it was before is seen. -/
def locked (change : Session → Session) (seen : Session → α) : ThreadM α :=
  ExceptT.lift (Turns.locked change fun session => .done (seen session))

/-- The computation of a thread, with nobody in between. -/
def alone (thread : ThreadM α) : SessionM α := ExceptT.mk thread.run.alone

theorem alone_bind (thread : ThreadM α) (after : α → ThreadM β) :
    (thread >>= after).alone = thread.alone >>= fun value => (after value).alone := by
  have rest : ∀ outcome, Turns.alone (ExceptT.bindCont after outcome) =
      ExceptT.bindCont (fun value => (after value).alone) outcome := by
    intro outcome
    cases outcome <;> rfl
  exact (Turns.alone_bind thread.run _).trans (congrArg (fun next => thread.run.alone >>= next) (funext rest))

/-- A thread does, if nobody interferes, what a computation in one session does. -/
def Does (thread : ThreadM α) (action : SessionM α) : Prop := thread.alone = action

theorem does_composes : Composes (m := ThreadM) (n := SessionM) Does where
  pure _ := rfl
  throw _ := rfl
  bind same rest := by
    rw [Does] at same ⊢
    rw [alone_bind, same]
    exact congrArg _ (funext rest)

end ThreadM

end SealedContent
