import SealedContent.Proofs.Storage.Holds

/-! # Computations made of steps

`Runs w action expected related` says that a computation in a workspace is a run of steps, and compares it
with an outcome that needs no session: both fail with the same error, or both succeed with values that are
related in the workspace that is left. It is closed under composition.
-/

namespace SealedContent

open Workspace (Step Steps)

/-- Two nodes with the same bytes. The numbers of tables and verdicts play no part. -/
structure Storage.Alike (node other : Storage) : Prop where
  size : node.size = other.size
  byte : node.byte? = other.byte?
  fits : node.Fits ↔ other.Fits

namespace Storage.Alike

variable {node other : Storage}

theorem refl (node : Storage) : node.Alike node := ⟨rfl, rfl, .rfl⟩

theorem holds {bytes : Bytes} (alike : node.Alike other) (holds : other.Holds bytes) : node.Holds bytes :=
  ⟨alike.size.trans holds.size, fun position => by rw [alike.byte]; exact holds.byte position,
    alike.fits.mpr holds.fits⟩

theorem symm (alike : node.Alike other) : other.Alike node := ⟨alike.size.symm, alike.byte.symm, alike.fits.symm⟩

theorem trans {last : Storage} (alike : node.Alike other) (further : other.Alike last) : node.Alike last :=
  ⟨alike.size.trans further.size, alike.byte.trans further.byte, alike.fits.trans further.fits⟩

theorem cache (alike : node.Alike other) (table otherTable blockSize capacity : Nat) :
    (Storage.cache table node blockSize capacity).Alike (.cache otherTable other blockSize capacity) :=
  ⟨alike.size, by show ByteMap.cached _ _ _ = ByteMap.cached _ _ _; rw [alike.size, alike.byte], alike.fits⟩

theorem indirect (alike : node.Alike other) (patch : Storage) (table : BucketTree Relocation) :
    (Storage.indirect node patch table).Alike (.indirect other patch table) :=
  ⟨rfl, by show ByteMap.relocated _ _ _ = ByteMap.relocated _ _ _; rw [alike.byte],
    and_congr_left' alike.fits⟩

/-- Windows onto nodes with the same bytes have the same bytes. -/
theorem window {cut otherCut : Storage} (alike : node.Alike other) {start size : Nat}
    (made : node.window start size = .ok cut) (otherMade : other.window start size = .ok otherCut) :
    cut.Alike otherCut := by
  refine ⟨(size_window made).1.trans (size_window otherMade).1.symm, funext fun position => ?_,
    (fits_window made).trans (alike.fits.trans (fits_window otherMade).symm)⟩
  rw [byte?_window made, byte?_window otherMade, alike.byte]

end Storage.Alike

/-- What can be read of a node is what another one of its size has there. -/
structure Storage.Within (node other : Storage) : Prop where
  size : node.size = other.size
  byte : ∀ position byte, node.byte? position = some byte → other.byte? position = some byte

namespace Storage

variable {node middle other : Storage}

theorem Alike.within (alike : node.Alike other) : node.Within other :=
  ⟨alike.size, fun position byte present => by rwa [← alike.byte]⟩

theorem Within.trans (first : node.Within middle) (second : middle.Within other) : node.Within other :=
  ⟨first.size.trans second.size, fun position byte present => second.byte _ _ (first.byte position byte present)⟩

/-- What is read of the one is read of the other, each in a workspace of its own. -/
theorem Within.read {w otherW : Workspace} (within : node.Within other) (sound : w.Sound) (member : node ∈ w.nodes)
    (otherSound : otherW.Sound) (otherMember : other ∈ otherW.nodes) (otherFits : other.Fits) {offset length : Nat}
    {bytes : Bytes} (gives : (node.read offset length).result w.session = .ok bytes) :
    (other.read offset length).result otherW.session = .ok bytes := by
  rw [(node.read_answers sound.graph member offset length _ sound.remembers).1] at gives
  rw [(other.read_answers otherSound.graph otherMember offset length _ otherSound.remembers).1]
  have inside : offset + length ≤ node.size := by
    by_contra outside
    rw [Storage.outcome_outside (by omega)] at gives
    cases gives
  rw [outcome_eq_ok_iff otherSound.graph otherMember otherFits (by rwa [← within.size]), ByteMap.window?_eq_some_iff]
  obtain ⟨long, each⟩ := ByteMap.window?_eq_some_iff.mp (outcome_bytes sound.graph member gives)
  refine ⟨long, fun i before => ?_⟩
  have here := each i before
  rw [List.getElem?_eq_getElem (by omega)] at here ⊢
  exact within.byte _ _ here

end Storage

variable {α α' β β' : Type}

/-- The computation is a run of steps, and does what is expected. -/
def Runs (w : Workspace) (action : SessionM α) (expected : Except Error α')
    (related : Workspace → α → α' → Prop) : Prop :=
  ∃ last, Steps w last ∧ last.session = action.after w.session ∧
    ((∃ error, action.result w.session = .error error ∧ expected = .error error) ∨
      ∃ value other, action.result w.session = .ok value ∧ expected = .ok other ∧ related last value other)

namespace Runs

variable {w : Workspace} {related : Workspace → α → α' → Prop} {relatedNext : Workspace → β → β' → Prop}

theorem pure {value : α} {other : α'} (holds : related w value other) :
    Runs w (Pure.pure value) (.ok other) related :=
  ⟨w, .refl, rfl, .inr ⟨value, other, rfl, rfl, holds⟩⟩

theorem throw (error : Error) : Runs w (MonadExcept.throw error : SessionM α) (.error error) related :=
  ⟨w, .refl, rfl, .inl ⟨error, rfl, rfl⟩⟩

theorem throw_bind (error : Error) (next : α → SessionM β) (expectedNext : α' → Except Error β') :
    Runs w (MonadExcept.throw error >>= next) (MonadExcept.throw error >>= expectedNext) relatedNext :=
  throw error

/-- Nodes may be made before the computation starts. -/
theorem after_steps {action : SessionM α} {expected : Except Error α'} {middle : Workspace} (steps : Steps w middle)
    (same : middle.session = w.session) (runs : Runs middle action expected related) :
    Runs w action expected related := by
  obtain ⟨last, further, session, outcome⟩ := runs
  rw [same] at session outcome
  exact ⟨last, steps.trans further, session, outcome⟩

theorem bind {action : SessionM α} {expected : Except Error α'} {next : α → SessionM β}
    {expectedNext : α' → Except Error β'} (first : Runs w action expected related)
    (rest : ∀ middle value other, Steps w middle → related middle value other →
      Runs middle (next value) (expectedNext other) relatedNext) :
    Runs w (action >>= next) (expected >>= expectedNext) relatedNext := by
  obtain ⟨middle, steps, session, outcome⟩ := first
  cases outcome with
  | inl failed =>
    obtain ⟨error, gives, rfl⟩ := failed
    refine ⟨middle, steps, ?_, .inl ⟨error, SessionM.result_bind_error gives next, rfl⟩⟩
    rw [session, SessionM.after_bind_error gives]
  | inr succeeded =>
    obtain ⟨value, other, gives, rfl, holds⟩ := succeeded
    obtain ⟨last, further, lastSession, outcome⟩ := rest middle value other steps holds
    rw [session, ← SessionM.after_bind_ok gives next] at lastSession
    rw [session, ← SessionM.result_bind_ok gives next] at outcome
    exact ⟨last, steps.trans further, lastSession, outcome⟩

/-- What needs no session is the same on both sides. -/
theorem lift_bind {outcome : Except Error α} {next : α → SessionM β} {expectedNext : α → Except Error β'}
    (rest : ∀ value, outcome = .ok value → Runs w (next value) (expectedNext value) relatedNext) :
    Runs w ((liftM outcome : SessionM α) >>= next) (outcome >>= expectedNext) relatedNext := by
  cases outcome with
  | error error => exact throw error
  | ok value => exact rest value rfl

/-- A read gives what a read without a memory gives. -/
theorem read_bind (sound : w.Sound) {node : Storage} (member : node ∈ w.nodes) {offset length : Nat}
    {next : Bytes → SessionM β} {expectedNext : Bytes → Except Error β'}
    (rest : ∀ bytes, Runs (w.left (node.read offset length)) (next bytes) (expectedNext bytes) relatedNext) :
    Runs w (node.read offset length >>= next) (node.outcome offset length >>= expectedNext) relatedNext := by
  -- what the workspace remembers is right, so it does not change what the read gives
  have gives := (node.read_answers sound.graph member offset length _ sound.remembers).1
  have first : Runs w (node.read offset length) (node.outcome offset length)
      fun middle value other => middle = w.left (node.read offset length) ∧ value = other := by
    refine ⟨_, .step .refl (.read member offset length), rfl, ?_⟩
    cases outcome : node.outcome offset length with
    | error error => exact .inl ⟨error, by rw [gives, outcome], rfl⟩
    | ok bytes => exact .inr ⟨bytes, bytes, by rw [gives, outcome], rfl, rfl, rfl⟩
  refine bind first ?_
  rintro _ value _ - ⟨rfl, rfl⟩
  exact rest value

end Runs

end SealedContent
