import SealedContent.Proofs.Storage.Parsing
import SealedContent.Proofs.Storage.Taking

/-! # Readers as cursors

A reader over a node is compared with a cursor over the bytes of the node: a natural number that seeks move
anywhere and reads move forward. Whatever is asked of the reader, it answers as the cursor does
(`reader_answers`), up to a seek to `2 ^ 64` or beyond: positions have 64 bits, and such a seek is not refused
but arrives at the target without its upper bits.
-/

namespace SealedContent

open Workspace (Steps)

/-- The position that a seek asks for, which may lie before the start. -/
def SeekFrom.target (size position : Nat) : SeekFrom → Int
  | .start offset => offset
  | .last distance => size + distance
  | .current distance => position + distance

namespace Cursor

/-! ## Calls -/

inductive Call where
  | seek (aim : SeekFrom)
  | read (count : Nat)
  | exactly (count : Nat)
  | toEnd

inductive Answer where
  | moved (position : Nat)
  | bytes (bytes : Bytes)
deriving DecidableEq

/-- What the reader does. -/
def Call.perform : Call → ReaderM Answer
  | seek aim => return .moved (← ReaderM.seek aim)
  | read count => return .bytes (← ReaderM.read count)
  | exactly count => return .bytes (← ReaderM.exactly count)
  | toEnd => return .bytes (← ReaderM.toEnd)

/-- The outcome of a move, after which the reader goes on even if it failed. -/
def observe {α : Type} (move : ReaderM α) : ReaderM (Except Error α) := ExceptT.lift move.run

def performAll (calls : List Call) : ReaderM (List (Except Error Answer)) :=
  calls.mapM fun call => observe call.perform

/-! ## The cursor -/

/-- The answer of a cursor and its position afterwards. A seek that is not refused goes to its target, as the
    cursor stores it. -/
def answer (store : Nat → Nat) (bytes : Bytes) (position : Nat) : Call → Except Error Answer × Nat
  | .seek aim =>
    let target := aim.target bytes.length position
    if target < 0 then (.error .seekBeforeStart, position)
    else (.ok (.moved (store target.toNat)), store target.toNat)
  | .read count => (.ok (.bytes (bytes.window position count)), position + min count (bytes.length - position))
  | .exactly count =>
    if bytes.length - position < count then (.error .endOfReader, max position bytes.length)
    else (.ok (.bytes (bytes.window position count)), position + count)
  | .toEnd => (.ok (.bytes (bytes.drop position)), max position bytes.length)

/-- The answers to calls that are made one after the other, and the last position. -/
def answers (store : Nat → Nat) (bytes : Bytes) : (position : Nat) → List Call → List (Except Error Answer) × Nat
  | position, [] => ([], position)
  | position, call :: rest =>
    let first := answer store bytes position call
    let others := answers store bytes first.2 rest
    (first.1 :: others.1, others.2)

/-- Positions as 64 bits hold them. -/
def wrapped (position : Nat) : Nat := position % UInt64.size

/-- Positions as they are. -/
def exact (position : Nat) : Nat := position

/-- A seek does not ask for more than 64 bits hold. -/
def Call.Fits (size position : Nat) : Call → Prop
  | seek aim => aim.target size position < UInt64.size
  | _ => True

instance (size position : Nat) (call : Call) : Decidable (call.Fits size position) :=
  match call with
  | .seek aim => inferInstanceAs (Decidable (aim.target size position < UInt64.size))
  | .read _ | .exactly _ | .toEnd => .isTrue trivial

/-- Nor does any seek of a run. -/
def Fits (bytes : Bytes) : (position : Nat) → List Call → Prop
  | _, [] => True
  | position, call :: rest =>
    call.Fits bytes.length position ∧ Fits bytes (answer exact bytes position call).2 rest

instance Fits.decidable (bytes : Bytes) : (position : Nat) → (calls : List Call) → Decidable (Fits bytes position calls)
  | _, [] => .isTrue trivial
  | position, call :: rest =>
    have := decidable bytes (answer exact bytes position call).2 rest
    inferInstanceAs (Decidable (_ ∧ _))

/-! ## Runs -/

section
variable {α β : Type} {kept : Session → Prop} {nodes : List Storage} {node : Storage} {bytes : Bytes}
  {start middle stop : Nat}

/-- A move is observed to have this outcome if it runs with it. -/
theorem takes_observe_iff {move : ReaderM α} {outcome : Except Error α} :
    Takes kept node start (observe move) outcome stop ↔ ∀ session, kept session → ∃ left, kept left ∧
      move ⟨node, start⟩ session = ((outcome, ⟨node, stop⟩), left) := by
  have observed session left : observe move ⟨node, start⟩ session = ((.ok outcome, ⟨node, stop⟩), left) ↔
      move ⟨node, start⟩ session = ((outcome, ⟨node, stop⟩), left) := by
    show ((Except.ok (move ⟨node, start⟩ session).1.1, (move ⟨node, start⟩ session).1.2), _) = _ ↔ _
    rcases move ⟨node, start⟩ session with ⟨⟨first, reader⟩, after⟩
    constructor
    · intro same
      cases same
      rfl
    · intro same
      cases same
      rfl
  simp only [Takes, ExceptT.run, StateT.run, observed]

theorem observe_ok {move : ReaderM α} {value : α} (takes : Takes kept node start move value stop) :
    Takes kept node start (observe move) (.ok value) stop := takes_observe_iff.mpr takes

theorem observe_throw (error : Error) :
    Takes kept node start (observe (throw error : ReaderM α)) (.error error) start :=
  takes_observe_iff.mpr fun session holds => ⟨session, holds, rfl⟩

theorem observe_bind {move : ReaderM α} {value : α} {next : α → ReaderM β} {outcome : Except Error β}
    (first : Takes kept node start move value middle)
    (rest : Takes kept node middle (observe (next value)) outcome stop) :
    Takes kept node start (observe (move >>= next)) outcome stop := by
  apply takes_observe_iff.mpr
  intro session holds
  obtain ⟨between, holds, ran⟩ := first session holds
  obtain ⟨left, holds, continued⟩ := takes_observe_iff.mp rest between holds
  refine ⟨left, holds, ?_⟩
  simp only [ExceptT.run, StateT.run] at ran
  simp only [Bind.bind, ExceptT.bind, ExceptT.mk, StateT.bind, ExceptT.bindCont]
  rw [ran]
  exact continued

/-- What follows a failure is not reached. -/
theorem observe_fail {move : ReaderM α} {error : Error}
    (failed : Takes kept node start (observe move) (.error error) stop) (next : α → ReaderM β) :
    Takes kept node start (observe (move >>= next)) (.error error) stop := by
  apply takes_observe_iff.mpr
  intro session holds
  obtain ⟨left, holds, ran⟩ := takes_observe_iff.mp failed session holds
  refine ⟨left, holds, ?_⟩
  simp only [Bind.bind, ExceptT.bind, ExceptT.mk, StateT.bind, ExceptT.bindCont]
  rw [ran]
  rfl

theorem observe_get {next : Reader → ReaderM β} {outcome : Except Error β}
    (rest : Takes kept node start (observe (next ⟨node, start⟩)) outcome stop) :
    Takes kept node start (observe (get >>= next)) outcome stop := rest

/-! ## Calls -/

/-- A seek asks for its target, and takes as much of it as 64 bits hold. -/
theorem seek_eq (aim : SeekFrom) : ReaderM.seek aim = (do
    let reader ← get
    if aim.target reader.storage.size reader.position < 0 then throw .seekBeforeStart
    set { reader with position := wrapped (aim.target reader.storage.size reader.position).toNat }
    return wrapped (aim.target reader.storage.size reader.position).toNat) := by
  cases aim <;> rfl

theorem observe_seek (sized : node.size = bytes.length) (aim : SeekFrom) :
    Takes kept node start (observe (Call.seek aim).perform) (answer wrapped bytes start (.seek aim)).1
      (answer wrapped bytes start (.seek aim)).2 := by
  simp only [answer, ← sized]
  by_cases before : aim.target node.size start < 0
  · have refused : Takes kept node start (observe (ReaderM.seek aim)) (.error .seekBeforeStart) start := by
      rw [seek_eq]
      apply observe_get
      rw [if_pos before]
      exact observe_fail (observe_throw _) _
    rw [if_pos before]
    exact observe_fail refused _
  · have moved : Takes kept node start (ReaderM.seek aim) (wrapped (aim.target node.size start).toNat)
        (wrapped (aim.target node.size start).toNat) := by
      rw [seek_eq]
      apply Takes.get_bind
      rw [if_neg before]
      exact .bind (.set _) (.pure _)
    rw [if_neg before]
    exact observe_ok (.bind moved (.pure _))

section
variable (graph : Coherent nodes) (member : node ∈ nodes) (holds : node.Holds bytes)
include graph member holds

theorem observe_exactly (count : Nat) :
    Takes (Remembers nodes) node start (observe (Call.exactly count).perform)
      (answer wrapped bytes start (.exactly count)).1 (answer wrapped bytes start (.exactly count)).2 := by
  have available := Takes.available graph member holds start count
  have length := Bytes.length_window_eq bytes start count
  simp only [answer]
  by_cases short : bytes.length - start < count
  · have failed : Takes (Remembers nodes) node start (observe (ReaderM.exactly count)) (.error .endOfReader)
        (start + min count (bytes.length - start)) := by
      apply observe_bind available
      rw [if_pos (by omega)]
      exact observe_fail (observe_throw _) _
    have stops : start + min count (bytes.length - start) = max start bytes.length := by omega
    rw [if_pos short, ← stops]
    exact observe_fail failed _
  · have taken : Takes (Remembers nodes) node start (ReaderM.exactly count) (bytes.window start count)
        (start + count) := by
      rw [Nat.min_eq_left (Nat.not_lt.mp short)] at available
      apply Takes.bind available
      rw [if_neg (by omega)]
      exact .pure _
    rw [if_neg short]
    exact observe_ok (.bind taken (.pure _))

/-- The answer to one call is that of the cursor, and so is the position. -/
theorem observe_call (call : Call) :
    Takes (Remembers nodes) node start (observe call.perform) (answer wrapped bytes start call).1
      (answer wrapped bytes start call).2 := by
  cases call with
  | seek aim => exact observe_seek holds.size aim
  | read count => exact observe_ok (.bind (.available graph member holds start count) (.pure _))
  | exactly count => exact observe_exactly graph member holds count
  | toEnd => exact observe_ok (.bind (.toEnd graph member holds) (.pure _))

theorem performAll_takes (start : Nat) (calls : List Call) :
    Takes (Remembers nodes) node start (performAll calls) (answers wrapped bytes start calls).1
      (answers wrapped bytes start calls).2 := by
  induction calls generalizing start with
  | nil => exact .pure []
  | cons call rest inductionHypothesis =>
    rw [performAll, List.mapM_cons]
    exact .bind (observe_call graph member holds call) (.bind (inductionHypothesis _) (.pure _))

end

end

/-! ## Targets of 64 bits -/

variable {bytes : Bytes} {position : Nat} {call : Call}

theorem answer_fits (fits : call.Fits bytes.length position) :
    answer wrapped bytes position call = answer exact bytes position call := by
  cases call with
  | seek aim =>
    have small : (aim.target bytes.length position).toNat < UInt64.size := (Int.toNat_lt' (by decide)).mpr fits
    have same : wrapped (aim.target bytes.length position).toNat = (aim.target bytes.length position).toNat :=
      Nat.mod_eq_of_lt small
    simp only [answer, same, exact]
  | read _ | exactly _ | toEnd => rfl

theorem fits_of_answer
    (same : (answer wrapped bytes position call).1 = (answer exact bytes position call).1) :
    call.Fits bytes.length position := by
  cases call with
  | seek aim =>
    by_contra large
    have beyond : UInt64.size ≤ aim.target bytes.length position := Int.not_lt.mp large
    have after : ¬aim.target bytes.length position < 0 := by omega
    simp only [answer, if_neg after, Except.ok.injEq, Answer.moved.injEq, wrapped, exact] at same
    have below := Nat.mod_lt (aim.target bytes.length position).toNat (show 0 < UInt64.size by decide)
    omega
  | read _ | exactly _ | toEnd => trivial

/-- The answers are those of the exact cursor as long as no seek goes further than 64 bits, and no longer. -/
theorem answers_eq_iff (calls : List Call) :
    (answers wrapped bytes position calls).1 = (answers exact bytes position calls).1 ↔ Fits bytes position calls := by
  induction calls generalizing position with
  | nil => exact iff_of_true rfl trivial
  | cons call rest inductionHypothesis =>
    simp only [answers, Fits, List.cons.injEq]
    constructor
    · intro ⟨first, others⟩
      have fits := fits_of_answer first
      rw [answer_fits fits] at others
      exact ⟨fits, inductionHypothesis.mp others⟩
    · intro ⟨fits, others⟩
      rw [answer_fits fits]
      exact ⟨rfl, inductionHypothesis.mpr others⟩

/-- A reader over a node that can be read as a whole answers every sequence of calls as a cursor over its bytes that
    keeps positions in 64 bits. These are the answers of the exact cursor unless a seek asks for more. -/
theorem reader_answers {w later : Workspace} (reached : Steps {} w) {node : Storage} (member : node ∈ w.nodes)
    (reads : node.readAll.result w.session = .ok bytes) (followed : Steps w later) (start : Nat)
    (calls : List Call) :
    let run := (((performAll calls).run.run ⟨node, start⟩).run later.session).1
    run = (.ok (answers wrapped bytes start calls).1, ⟨node, (answers wrapped bytes start calls).2⟩) ∧
      (run.1 = .ok (answers exact bytes start calls).1 ↔ Fits bytes start calls) := by
  have sound := Workspace.sound_of_steps (reached.trans followed)
  have holds := Storage.Holds.of_readAll reached member reads
  obtain ⟨left, -, ran⟩ := performAll_takes sound.graph (followed.nodes_subset node member) holds start calls
    later.session sound.remembers
  intro run
  have gives : run = (.ok (answers wrapped bytes start calls).1, ⟨node, (answers wrapped bytes start calls).2⟩) :=
    congrArg Prod.fst ran
  refine ⟨gives, ?_⟩
  rw [gives, Except.ok.injEq]
  exact answers_eq_iff calls

/-- Moves past the end and before the start, and two that pass `2 ^ 64`. -/
def sampleCalls : List Call :=
  [.seek (.start 2), .exactly 3, .seek (.last (-1)), .read 7, .read 1, .seek (.current (-5)), .seek (.start 9), .toEnd,
    .exactly 0, .seek (.start (2 ^ 64 - 1)), .seek (.current 1), .read 2]

theorem reader_answers_wrapping :
    let content := Storage.ofBytes [10, 11, 12, 13]
    let w := Workspace.add {} content
    Steps {} w ∧ content.readAll.result w.session = .ok [10, 11, 12, 13] ∧ ¬Fits [10, 11, 12, 13] 0 sampleCalls ∧
    (((performAll sampleCalls).run.run ⟨content, 0⟩).run w.session).1.1 = .ok [
      .ok (.moved 2), .error .endOfReader, .ok (.moved 3), .ok (.bytes [13]), .ok (.bytes []),
      .error .seekBeforeStart, .ok (.moved 9), .ok (.bytes []), .ok (.bytes []), .ok (.moved (2 ^ 64 - 1)),
      .ok (.moved 0), .ok (.bytes [10, 11])] := by
  intro content w
  have reached : Steps {} w := .step .refl (.memory (by decide))
  have member : content ∈ w.nodes := .head _
  have reads : content.readAll.result w.session = .ok [10, 11, 12, 13] := readAll_ofBytes _ _
  obtain ⟨gives, -⟩ := reader_answers reached member reads .refl 0 sampleCalls
  refine ⟨reached, reads, by decide, ?_⟩
  rw [gives]
  rfl

end Cursor

end SealedContent
