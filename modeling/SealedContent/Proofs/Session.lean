import SealedContent.Storage.Session

/-! # Results that do not depend on a session

`Answers kept action outcome` says that `action` gives `outcome` from every session with a property,
and leaves a session with that property. `Keeps kept action` says the second half only. Both are
closed under the operations of the session monad, so that a computation is settled piece by piece.
-/

namespace SealedContent

namespace SessionM

variable {α β : Type}

/-- The result of a computation that starts in a session. -/
def result (action : SessionM α) (session : Session) : Except Error α := (action.run.run session).1

/-- The session that a computation leaves. -/
def after (action : SessionM α) (session : Session) : Session := (action.run.run session).2

/-! ## The operations -/

@[simp] theorem result_pure (value : α) (session : Session) :
    (pure value : SessionM α).result session = .ok value := rfl

@[simp] theorem after_pure (value : α) (session : Session) :
    (pure value : SessionM α).after session = session := rfl

@[simp] theorem result_throw (error : Error) (session : Session) :
    (throw error : SessionM α).result session = .error error := rfl

@[simp] theorem after_throw (error : Error) (session : Session) :
    (throw error : SessionM α).after session = session := rfl

@[simp] theorem result_get (session : Session) :
    (get : SessionM Session).result session = .ok session := rfl

@[simp] theorem after_get (session : Session) : (get : SessionM Session).after session = session := rfl

@[simp] theorem result_modify (change : Session → Session) (session : Session) :
    (modify change : SessionM Unit).result session = .ok () := rfl

@[simp] theorem after_modify (change : Session → Session) (session : Session) :
    (modify change : SessionM Unit).after session = change session := rfl

theorem run_bind (action : SessionM α) (next : α → SessionM β) (session : Session) :
    (action >>= next).run.run session = match action.run.run session with
      | (.ok value, left) => (next value).run.run left
      | (.error error, left) => (.error error, left) := by
  simp only [ExceptT.run, StateT.run]
  simp only [bind, ExceptT.bind, ExceptT.mk, StateT.bind, ExceptT.bindCont]
  cases action session with
  | mk outcome left => cases outcome <;> rfl

theorem run_get_bind (next : Session → SessionM α) (session : Session) :
    (get >>= next).run.run session = (next session).run.run session := rfl

theorem result_bind_ok {action : SessionM α} {session : Session} {value : α}
    (gives : action.result session = .ok value) (next : α → SessionM β) :
    (action >>= next).result session = (next value).result (action.after session) := by
  simp only [result, after] at *
  rw [run_bind]
  cases ran : action.run.run session with
  | mk outcome left => rw [ran] at gives; cases gives; rfl

theorem after_bind_ok {action : SessionM α} {session : Session} {value : α}
    (gives : action.result session = .ok value) (next : α → SessionM β) :
    (action >>= next).after session = (next value).after (action.after session) := by
  simp only [result, after] at *
  rw [run_bind]
  cases ran : action.run.run session with
  | mk outcome left => rw [ran] at gives; cases gives; rfl

theorem result_bind_error {action : SessionM α} {session : Session} {error : Error}
    (gives : action.result session = .error error) (next : α → SessionM β) :
    (action >>= next).result session = .error error := by
  simp only [result] at *
  rw [run_bind]
  cases ran : action.run.run session with
  | mk outcome left => rw [ran] at gives; cases gives; rfl

theorem after_bind_error {action : SessionM α} {session : Session} {error : Error}
    (gives : action.result session = .error error) (next : α → SessionM β) :
    (action >>= next).after session = action.after session := by
  simp only [result, after] at *
  rw [run_bind]
  cases ran : action.run.run session with
  | mk outcome left => rw [ran] at gives; cases gives; rfl

@[simp] theorem result_lift (outcome : Except Error α) (session : Session) :
    (liftM outcome : SessionM α).result session = outcome := rfl

@[simp] theorem after_lift (outcome : Except Error α) (session : Session) :
    (liftM outcome : SessionM α).after session = session := rfl

@[simp] theorem lift_ok_bind (value : α) (next : α → SessionM β) :
    (liftM (Except.ok value : Except Error α) : SessionM α) >>= next = next value := rfl

@[simp] theorem lift_error_bind (error : Error) (next : α → SessionM β) :
    (liftM (Except.error error : Except Error α) : SessionM α) >>= next = throw error := rfl

/-- Both computations succeed where their composition does. -/
theorem bind_eq_ok {action : SessionM α} {next : α → SessionM β} {session : Session} {value : β}
    (gives : (action >>= next).result session = .ok value) :
    ∃ middle, action.result session = .ok middle ∧
      (next middle).result (action.after session) = .ok value := by
  cases first : action.result session with
  | error error => rw [result_bind_error first] at gives; cases gives
  | ok middle => rw [result_bind_ok first] at gives; exact ⟨middle, rfl, gives⟩

/-- What follows a computation matters only for the values that it gives. -/
theorem bind_congr {action : SessionM α} {next other : α → SessionM β}
    (same : ∀ session value, action.result session = .ok value → next value = other value) :
    action >>= next = action >>= other := by
  have runs : ∀ session, (action >>= next).run.run session = (action >>= other).run.run session := by
    intro session
    rw [run_bind, run_bind]
    cases ran : action.run.run session with
    | mk outcome left =>
      cases outcome with
      | ok value =>
        have equal : next value = other value := same session value (congrArg Prod.fst ran)
        simp only [equal]
      | error error => rfl
  exact funext runs

/-- What holds after a failure of the first computation, and after each run of the second one, holds
    after both. -/
theorem bind_cases {P : Except Error β → Session → Prop} {action : SessionM α} {next : α → SessionM β}
    {session : Session}
    (failed : ∀ error, action.result session = .error error → P (.error error) (action.after session))
    (continued : ∀ value, action.result session = .ok value →
      P ((next value).result (action.after session)) ((next value).after (action.after session))) :
    P ((action >>= next).result session) ((action >>= next).after session) := by
  cases gives : action.result session with
  | error error => rw [result_bind_error gives, after_bind_error gives]; exact failed error gives
  | ok value => rw [result_bind_ok gives, after_bind_ok gives]; exact continued value gives

end SessionM

/-! ## Sessions with a property -/

open SessionM

variable {α β : Type} {kept : Session → Prop}

/-- From every session with the property, the computation gives this outcome and keeps the property. -/
def Answers (kept : Session → Prop) (action : SessionM α) (outcome : Except Error α) : Prop :=
  ∀ session, kept session → action.result session = outcome ∧ kept (action.after session)

/-- From every session with the property, the computation keeps the property. -/
def Keeps (kept : Session → Prop) (action : SessionM α) : Prop :=
  ∀ session, kept session → kept (action.after session)

namespace Answers

theorem keeps {action : SessionM α} {outcome : Except Error α} (answers : Answers kept action outcome) :
    Keeps kept action := fun session holds => (answers session holds).2

theorem pure (value : α) : Answers kept (Pure.pure value) (.ok value) :=
  fun _ holds => ⟨rfl, holds⟩

theorem throw (error : Error) : Answers kept (MonadExcept.throw error : SessionM α) (.error error) :=
  fun _ holds => ⟨rfl, holds⟩

theorem ofExcept (outcome : Except Error α) :
    Answers kept (MonadExcept.ofExcept outcome : SessionM α) (MonadExcept.ofExcept outcome) := by
  cases outcome with
  | ok value => exact pure value
  | error error => exact throw error

theorem lift (outcome : Except Error α) : Answers kept (liftM outcome) outcome := fun _ holds => ⟨rfl, holds⟩

theorem bind {action : SessionM α} {outcome : Except Error α} {next : α → SessionM β}
    {nextOutcome : α → Except Error β} (first : Answers kept action outcome)
    (rest : ∀ value, outcome = .ok value → Answers kept (next value) (nextOutcome value)) :
    Answers kept (action >>= next) (outcome >>= nextOutcome) := by
  intro session holds
  obtain ⟨gives, left⟩ := first session holds
  cases outcome with
  | ok value =>
    rw [result_bind_ok gives, after_bind_ok gives]
    exact rest value rfl _ left
  | error error =>
    rw [result_bind_error gives, after_bind_error gives]
    exact ⟨rfl, left⟩

/-- A computation that succeeds, and what comes after it. -/
theorem step {action : SessionM α} {value : α} {next : α → SessionM β} {outcome : Except Error β}
    (first : Answers kept action (.ok value)) (rest : Answers kept (next value) outcome) :
    Answers kept (action >>= next) outcome := by
  have both : Answers kept (action >>= next) (.ok value >>= fun _ => outcome) :=
    first.bind fun read same => by cases same; exact rest
  exact both

theorem mapM {action : α → SessionM β} {outcome : α → Except Error β} {items : List α}
    (each : ∀ item ∈ items, Answers kept (action item) (outcome item)) :
    Answers kept (items.mapM action) (items.mapM outcome) := by
  induction items with
  | nil => exact pure []
  | cons item rest inductionHypothesis =>
    rw [List.mapM_cons, List.mapM_cons]
    apply bind (each item (by simp))
    intro value _
    apply bind (inductionHypothesis fun other member => each other (by simp [member]))
    intro values _
    exact pure (value :: values)

end Answers

namespace Keeps

theorem pure (value : α) : Keeps kept (Pure.pure value) := fun _ holds => holds

theorem throw (error : Error) : Keeps kept (MonadExcept.throw error : SessionM α) := fun _ holds => holds

theorem ofExcept (outcome : Except Error α) : Keeps kept (MonadExcept.ofExcept outcome : SessionM α) :=
  (Answers.ofExcept outcome).keeps

theorem bind {action : SessionM α} {next : α → SessionM β} (first : Keeps kept action)
    (rest : ∀ value, Keeps kept (next value)) : Keeps kept (action >>= next) := by
  intro session holds
  have left := first session holds
  cases gives : action.result session with
  | ok value => rw [after_bind_ok gives]; exact rest value _ left
  | error error => rw [after_bind_error gives]; exact left

theorem mapM {action : α → SessionM β} {items : List α} (each : ∀ item ∈ items, Keeps kept (action item)) :
    Keeps kept (items.mapM action) := by
  induction items with
  | nil => exact pure []
  | cons item rest inductionHypothesis =>
    rw [List.mapM_cons]
    refine bind (each item (by simp)) fun value => ?_
    exact bind (inductionHypothesis fun other member => each other (by simp [member])) fun values => pure _

end Keeps

/-- Each of several computations leaves a mark of its own, and none takes the mark of another away. -/
theorem SessionM.marks_of_mapM {mark : α → Session → Prop} {action : α → SessionM β} {items : List α}
    (keeps : ∀ item ∈ items, Keeps kept (action item))
    (lasts : ∀ item ∈ items, ∀ other, Keeps (mark other) (action item))
    (marks : ∀ item ∈ items, ∀ session value, kept session → (action item).result session = .ok value →
      mark item ((action item).after session)) :
    ∀ {session values}, kept session → (items.mapM action).result session = .ok values →
      ∀ item ∈ items, mark item ((items.mapM action).after session) := by
  induction items with
  | nil => exact fun _ _ => List.forall_mem_nil _
  | cons first rest inductionHypothesis =>
    intro session values holds gives
    rw [List.mapM_cons] at gives ⊢
    obtain ⟨value, found, gives⟩ := bind_eq_ok gives
    obtain ⟨others, later, gives⟩ := bind_eq_ok gives
    have marked := marks first (by simp) session value holds found
    have holds := keeps first (by simp) session holds
    rw [after_bind_ok found, after_bind_ok later]
    refine List.forall_mem_cons.mpr ⟨?_, ?_⟩
    · exact Keeps.mapM (fun item member => lasts item (by simp [member]) first) _ marked
    · exact inductionHypothesis (fun item member => keeps item (by simp [member]))
        (fun item member => lasts item (by simp [member])) (fun item member => marks item (by simp [member]))
        holds later

end SealedContent
