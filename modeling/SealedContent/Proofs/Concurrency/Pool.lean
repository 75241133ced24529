import Mathlib.Data.DFinsupp.WellFounded
import Mathlib.Logic.Relation
import SealedContent.Proofs.Concurrency.Turns

/-! # Interleaved turns

Several threads over one session are a `Pool`. A `Pool.Turn` is a turn of any of them, so that a run, any number of
turns, is one way to interleave what the threads do. No run goes on for ever: `Pool.turn_wellFounded`.

`Turns.Settles kept allowed outcome` says of one thread that it changes sessions with a property only as it is allowed
to, and that it comes to `outcome` whatever else happens, as long as the sessions that it finds have the property. If
all that is allowed keeps the property, then threads that settle each on its own also do so in a pool:
`Pool.Settled.reaches`.
-/

namespace SealedContent

open Relation (ReflTransGen)

/-! ## Pools -/

/-- Threads over one session. -/
structure Pool (count : Nat) (α : Type) where
  session : Session
  threads : Fin count → Turns α

variable {count : Nat} {α β : Type}

namespace Pool

/-- One of the threads has a turn. -/
inductive Turn : Pool count α → Pool count α → Prop where
  | take {pool : Pool count α} (thread : Fin count) {change : Session → Session} {next : Session → Turns α}
      (ready : pool.threads thread = .locked change next) :
      Turn pool ⟨change pool.session, Function.update pool.threads thread (next pool.session)⟩

/-- The threads had any number of turns. -/
abbrev Reaches : Pool count α → Pool count α → Prop := ReflTransGen Turn

/-- The pool after a turn of a thread, if it wants one. -/
def act (pool : Pool count α) (thread : Fin count) : Pool count α :=
  match pool.threads thread with
  | .done _ => pool
  | .locked change next => ⟨change pool.session, Function.update pool.threads thread (next pool.session)⟩

/-- A list of threads is a schedule. -/
theorem reaches_schedule (schedule : List (Fin count)) (pool : Pool count α) :
    pool.Reaches (schedule.foldl act pool) := by
  induction schedule generalizing pool with
  | nil => exact .refl
  | cons thread rest inductionHypothesis =>
    refine .trans ?_ (inductionHypothesis (pool.act thread))
    unfold act
    split
    · exact .refl
    · next ready => exact .single (.take thread ready)

/-- Who waits for a turn can have it, so that all are done where nobody can. -/
theorem done_of_no_turn {pool : Pool count α} (none : ∀ later, ¬ pool.Turn later) (thread : Fin count) :
    ∃ value, pool.threads thread = .done value := by
  cases ready : pool.threads thread with
  | done value => exact ⟨value, rfl⟩
  | locked change next => exact absurd (.take thread ready) (none _)

end Pool

/-! ## Runs end -/

/-- What is left to do after a turn. -/
def Turns.Left (later now : Turns α) : Prop :=
  ∃ change next session, now = .locked change next ∧ later = next session

theorem Turns.left_wellFounded : WellFounded (Left : Turns α → Turns α → Prop) := by
  refine ⟨fun turns => ?_⟩
  induction turns with
  | done value => exact .intro _ fun _ ⟨_, _, _, same, _⟩ => nomatch same
  | locked change next inductionHypothesis =>
    refine .intro _ ?_
    rintro _ ⟨_, _, session, ⟨⟩, rfl⟩
    exact inductionHypothesis session

/-- A turn leaves less to do to one thread and the same to the others. -/
theorem Pool.turn_wellFounded : WellFounded fun later pool : Pool count α => pool.Turn later := by
  have order := Pi.Lex.wellFounded (fun first second : Fin count => first < second) fun _ : Fin count =>
    @Turns.left_wellFounded α
  refine Subrelation.wf ?_ (InvImage.wf Pool.threads order)
  rintro _ pool ⟨thread, ready⟩
  next change next =>
  refine ⟨thread, fun other before => Function.update_of_ne before.ne _ _, ?_⟩
  exact ⟨change, next, pool.session, ready, Function.update_self ..⟩

/-- No schedule has a turn at each time. -/
theorem Pool.schedule_ends (schedule : Nat → Pool count α) : ∃ time, ¬ (schedule time).Turn (schedule (time + 1)) := by
  by_contra! goes
  exact (wellFounded_iff_isEmpty_descending_chain.mp turn_wellFounded).elim ⟨schedule, goes⟩

/-! ## Threads that settle -/

section

variable {kept : Session → Prop} {allowed : Session → Session → Prop}

/-- The thread changes the sessions that it finds as it is allowed to, and comes to the outcome. -/
def Turns.Settles (kept : Session → Prop) (allowed : Session → Session → Prop) (outcome : β) : Turns β → Prop
  | done value => value = outcome
  | locked change next => ∀ session, kept session →
      allowed session (change session) ∧ (next session).Settles kept allowed outcome

theorem Turns.Settles.bind {turns : Turns α} {after : α → Turns β} {middle : α} {outcome : β}
    (first : turns.Settles kept allowed middle) (rest : (after middle).Settles kept allowed outcome) :
    (turns >>= after).Settles kept allowed outcome := by
  induction turns with
  | done value =>
    cases first
    exact rest
  | locked change next inductionHypothesis =>
    intro session holds
    obtain ⟨may, settles⟩ := first session holds
    exact ⟨may, inductionHypothesis session settles⟩

/-- A thread that nobody disturbs is one case of all. -/
theorem Turns.Settles.alone (keeps : ∀ session later, allowed session later → kept session → kept later)
    {turns : Turns β} {outcome : β} (settles : turns.Settles kept allowed outcome) {session : Session}
    (holds : kept session) : (turns.alone session).1 = outcome := by
  induction turns generalizing session with
  | done value => exact settles
  | locked change next inductionHypothesis =>
    obtain ⟨may, settles⟩ := settles session holds
    exact inductionHypothesis session settles (keeps _ _ may holds)

/-- All threads of a pool settle. -/
structure Pool.Settled (kept : Session → Prop) (allowed : Session → Session → Prop) (outcomes : Fin count → β)
    (pool : Pool count β) : Prop where
  holds : kept pool.session
  settles : ∀ thread, (pool.threads thread).Settles kept allowed (outcomes thread)

namespace Pool.Settled

variable {outcomes : Fin count → β} {pool later : Pool count β}

/-- A turn changes the session as it is allowed to, and all threads settle as before. -/
theorem turn (keeps : ∀ session later, allowed session later → kept session → kept later)
    (settled : pool.Settled kept allowed outcomes) (turn : pool.Turn later) :
    allowed pool.session later.session ∧ later.Settled kept allowed outcomes := by
  obtain ⟨thread, ready⟩ := turn
  have mine := settled.settles thread
  rw [ready] at mine
  obtain ⟨may, settles⟩ := mine pool.session settled.holds
  refine ⟨may, keeps _ _ may settled.holds, fun other => ?_⟩
  by_cases same : other = thread
  · subst same
    simpa only [Function.update_self] using settles
  · simpa only [Function.update_of_ne same] using settled.settles other

/-- So it is for any number of turns. -/
theorem reaches (keeps : ∀ session later, allowed session later → kept session → kept later)
    (settled : pool.Settled kept allowed outcomes) (reached : pool.Reaches later) :
    ReflTransGen allowed pool.session later.session ∧ later.Settled kept allowed outcomes := by
  induction reached with
  | refl => exact ⟨.refl, settled⟩
  | tail _ next inductionHypothesis =>
    obtain ⟨changed, settled⟩ := inductionHypothesis
    obtain ⟨may, settled⟩ := settled.turn keeps next
    exact ⟨changed.tail may, settled⟩

/-- What a thread has come to is its outcome. -/
theorem eq_of_done (settled : pool.Settled kept allowed outcomes) {thread : Fin count} {value : β}
    (done : pool.threads thread = .done value) : value = outcomes thread := by
  have mine := settled.settles thread
  rwa [done] at mine

end Pool.Settled

end

end SealedContent
