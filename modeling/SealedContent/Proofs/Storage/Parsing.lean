import SealedContent.Proofs.Storage.Outcome
import SealedContent.Proofs.Windows
import SealedContent.Storage.Reader

/-! # Parsers over bytes in memory

`ParsesAt kept bytes start parser outcome stop` says what a parser gives that starts at a position of a
string: the outcome, and the position where it leaves the reader if it succeeds. It is closed under the
operations of the reader monad, and the fields that parsers read are the windows of the string.
-/

namespace SealedContent

variable {α β : Type} {kept : Session → Prop} {bytes : Bytes} {start middle stop : Nat}

/-- Bytes in memory can be read in any session. -/
theorem answers_memory (bytes : Bytes) {offset length : Nat} (inside : offset + length ≤ bytes.length) :
    Answers kept ((Storage.ofBytes bytes).read offset length) (.ok (bytes.window offset length)) := by
  have served : (Storage.ofBytes bytes).read offset length = pure (bytes.window offset length) := by
    simp only [Storage.ofBytes, Storage.read, ranged, List.size_toArray]
    rw [if_neg (by omega), List.extract_toArray, List.extract_eq_take_drop, Nat.add_sub_cancel_left]
    split
    · next empty => rw [empty]; rfl
    · rfl
  rw [served]
  exact .pure _

theorem readAll_ofBytes (bytes : Bytes) (session : Session) :
    (Storage.ofBytes bytes).readAll.result session = .ok bytes := by
  have all := (@answers_memory (fun _ => True) bytes 0 bytes.length (Nat.le_of_eq (Nat.zero_add _)) session trivial).1
  rwa [Bytes.window_all] at all

/-- From every session with the property and a reader at `start`, the parser gives this outcome and keeps
    the property. A success leaves the reader at `stop`. -/
def ParsesAt (kept : Session → Prop) (bytes : Bytes) (start : Nat) (parser : ReaderM α)
    (outcome : Except Error α) (stop : Nat) : Prop :=
  ∀ session, kept session → ∃ left position, kept left ∧
    (parser.run.run ⟨.ofBytes bytes, start⟩).run session = ((outcome, ⟨.ofBytes bytes, position⟩), left) ∧
    ∀ value, outcome = .ok value → position = stop

namespace ParsesAt

/-! ## The operations -/

theorem pure (value : α) : ParsesAt kept bytes start (Pure.pure value) (Pure.pure value) start :=
  fun session holds => ⟨session, start, holds, rfl, fun _ _ => rfl⟩

theorem throw (error : Error) :
    ParsesAt kept bytes start (MonadExcept.throw error : ReaderM α) (.error error) stop :=
  fun session holds => ⟨session, start, holds, rfl, nofun⟩

theorem lift (outcome : Except Error α) :
    ParsesAt kept bytes start (liftM outcome : ReaderM α) outcome start :=
  fun session holds => ⟨session, start, holds, rfl, fun _ _ => rfl⟩

theorem bind {parser : ReaderM α} {outcome : Except Error α} {next : α → ReaderM β}
    {nextOutcome : α → Except Error β} (first : ParsesAt kept bytes start parser outcome middle)
    (rest : ∀ value, outcome = .ok value → ParsesAt kept bytes middle (next value) (nextOutcome value) stop) :
    ParsesAt kept bytes start (parser >>= next) (outcome >>= nextOutcome) stop := by
  intro session holds
  obtain ⟨left, position, kept, ran, moved⟩ := first session holds
  simp only [ExceptT.run, StateT.run] at *
  cases outcome with
  | error error =>
    refine ⟨left, position, kept, ?_, nofun⟩
    simp only [Bind.bind, ExceptT.bind, ExceptT.mk, StateT.bind, ExceptT.bindCont]
    rw [ran]
    rfl
  | ok value =>
    -- only a success says where the reader is left, and only then it goes on from there
    obtain rfl := moved value rfl
    obtain ⟨last, final, keptLast, continued, stopped⟩ := rest value rfl left kept
    refine ⟨last, final, keptLast, ?_, stopped⟩
    simp only [Bind.bind, ExceptT.bind, ExceptT.mk, StateT.bind, ExceptT.bindCont] at continued ⊢
    rw [ran]
    exact continued

/-- A parser that succeeds, and what comes after it. -/
theorem step {parser : ReaderM α} {value : α} {next : α → ReaderM β} {outcome : Except Error β}
    (first : ParsesAt kept bytes start parser (.ok value) middle)
    (rest : ParsesAt kept bytes middle (next value) outcome stop) :
    ParsesAt kept bytes start (parser >>= next) outcome stop := by
  have both : ParsesAt kept bytes start (parser >>= next) (.ok value >>= fun _ => outcome) stop :=
    bind first fun read same => by cases same; exact rest
  exact both

theorem fail (error : Error) (next : α → ReaderM β) :
    ParsesAt kept bytes start ((MonadExcept.throw error : ReaderM α) >>= next) (.error error) stop :=
  fun session holds => ⟨session, start, holds, rfl, nofun⟩

/-- A value that is read and changed. -/
theorem map {parser : ReaderM α} {value : α} (parses : ParsesAt kept bytes start parser (.ok value) stop)
    (change : α → β) :
    ParsesAt kept bytes start (parser >>= fun read => Pure.pure (change read)) (.ok (change value)) stop :=
  bind parses fun read _ => pure (change read)

theorem get_bind {next : Reader → ReaderM β} {outcome : Except Error β}
    (rest : ParsesAt kept bytes start (next ⟨.ofBytes bytes, start⟩) outcome stop) :
    ParsesAt kept bytes start (get >>= next) outcome stop := rest

theorem set (position : Nat) :
    ParsesAt kept bytes start (MonadStateOf.set (Reader.mk (.ofBytes bytes) position) : ReaderM PUnit)
      (.ok ⟨⟩) position :=
  fun session holds => ⟨session, position, holds, rfl, fun _ _ => rfl⟩

theorem ofSession {action : SessionM α} {outcome : Except Error α} (answers : Answers kept action outcome) :
    ParsesAt kept bytes start (ReaderM.ofSession action) outcome start := by
  intro session holds
  obtain ⟨gives, left⟩ := answers session holds
  refine ⟨action.after session, start, left, ?_, fun _ _ => rfl⟩
  show ((action.result session, _), _) = _
  rw [gives]
  rfl

theorem fetch {action : SessionM α} {value : α} (answers : Answers kept action (.ok value))
    (change : Error → Error) :
    ParsesAt kept bytes start (ExceptT.mk do
      let result ← StateT.lift action.run
      return result.mapError change) (.ok value) start := by
  intro session holds
  obtain ⟨gives, left⟩ := answers session holds
  refine ⟨action.after session, start, left, ?_, fun _ _ => rfl⟩
  show ((Except.mapError change (action.result session), _), _) = _
  rw [gives]
  rfl

/-! ## Moves -/

theorem seekTo {offset : Nat} (short : offset < UInt64.size) :
    ParsesAt kept bytes start (ReaderM.seekTo offset) (.ok ()) offset := by
  have moved : ParsesAt kept bytes start (ReaderM.seek (.start offset)) (.ok offset) offset := by
    apply get_bind
    dsimp only
    rw [if_neg (by omega)]
    have position : (offset : Int).toNat % UInt64.size = offset := Nat.mod_eq_of_lt short
    rw [position]
    exact bind (set offset) fun _ _ => pure offset
  exact bind moved fun _ _ => pure ()

theorem exactly {count : Nat} (positive : 0 < count) (inside : start + count ≤ bytes.length) :
    ParsesAt kept bytes start (ReaderM.exactly count) (.ok (bytes.window start count)) (start + count) := by
  have size : (Storage.ofBytes bytes).size = bytes.length := rfl
  have read : ParsesAt kept bytes start (ReaderM.read count) (.ok (bytes.window start count))
      (start + count) := by
    apply get_bind
    dsimp only
    rw [if_neg (by omega), size, Nat.min_eq_left (by omega)]
    exact bind (fetch (answers_memory bytes inside) _) fun _ _ => bind (set _) fun _ _ => pure _
  refine bind read fun value same => ?_
  cases same
  rw [if_neg (by rw [Bytes.length_window inside]; omega)]
  exact pure _

/-! ## Fields -/

theorem number {width : Nat} (positive : 0 < width) (inside : start + width ≤ bytes.length) :
    ParsesAt kept bytes start (ReaderM.number width) (.ok (LittleEndian.decode (bytes.window start width)))
      (start + width) :=
  map (exactly positive inside) LittleEndian.decode

theorem block (inside : start + 16 ≤ bytes.length) :
    ParsesAt kept bytes start ReaderM.block (.ok (Aes.Block.ofBytes (bytes.window start 16))) (start + 16) :=
  map (exactly (by decide) inside) Aes.Block.ofBytes

theorem skip {count : Nat} (positive : 0 < count) (inside : start + count ≤ bytes.length) :
    ParsesAt kept bytes start (ReaderM.skip count) (.ok ()) (start + count) :=
  map (exactly positive inside) fun _ => ()

theorem repeatedFrom {item : ReaderM α} {outcome : (index : Nat) → Except Error α} {size : Nat} (count : Nat) :
    ∀ first, (∀ index, first ≤ index → index < first + count →
        ParsesAt kept bytes (start + index * size) item (outcome index) (start + (index + 1) * size)) →
      ParsesAt kept bytes (start + first * size) (ReaderM.repeated count item)
        ((List.range' first count).mapM outcome) (start + (first + count) * size) := by
  induction count with
  | zero => exact fun first _ => pure []
  | succ count inductionHypothesis =>
    intro first each
    rw [List.range'_succ, List.mapM_cons]
    refine bind (each first (Nat.le_refl _) (by omega)) fun value _ => ?_
    have rest := inductionHypothesis (first + 1) fun index low high => each index (by omega) (by omega)
    rw [show first + 1 + count = first + (count + 1) by omega] at rest
    exact bind rest fun _ _ => pure _

/-- Items of one size one after the other. -/
theorem repeated {item : ReaderM α} {outcome : (index : Nat) → Except Error α} {size : Nat} (count : Nat)
    (each : ∀ index < count,
      ParsesAt kept bytes (start + index * size) item (outcome index) (start + (index + 1) * size)) :
    ParsesAt kept bytes start (ReaderM.repeated count item) ((List.range count).mapM outcome)
      (start + count * size) := by
  have parses := repeatedFrom count 0 fun index _ inside => each index (by omega)
  rwa [← List.range_eq_range', Nat.zero_mul, Nat.zero_add, Nat.add_zero] at parses

theorem repeated_ok {item : ReaderM α} {value : (index : Nat) → α} {size : Nat} (count : Nat)
    (each : ∀ index < count,
      ParsesAt kept bytes (start + index * size) item (.ok (value index)) (start + (index + 1) * size)) :
    ParsesAt kept bytes start (ReaderM.repeated count item) (.ok ((List.range count).map value))
      (start + count * size) := by
  have parses := repeated count each
  rwa [mapM_ok fun index _ => rfl] at parses

end ParsesAt

/-- The parser gives this outcome, wherever it leaves the reader. -/
def Parses (kept : Session → Prop) (bytes : Bytes) (start : Nat) (parser : ReaderM α)
    (outcome : Except Error α) : Prop :=
  ∃ stop, ParsesAt kept bytes start parser outcome stop

namespace Parses

theorem bind {parser : ReaderM α} {outcome : Except Error α} {next : α → ReaderM β}
    {nextOutcome : α → Except Error β} (first : ParsesAt kept bytes start parser outcome middle)
    (rest : ∀ value, outcome = .ok value → Parses kept bytes middle (next value) (nextOutcome value)) :
    Parses kept bytes start (parser >>= next) (outcome >>= nextOutcome) := by
  cases outcome with
  | error error => exact ⟨start, .bind first nofun⟩
  | ok value =>
    obtain ⟨stop, parses⟩ := rest value rfl
    exact ⟨stop, .step first parses⟩

theorem step {parser : ReaderM α} {value : α} {next : α → ReaderM β} {outcome : Except Error β}
    (first : ParsesAt kept bytes start parser (.ok value) middle)
    (rest : Parses kept bytes middle (next value) outcome) :
    Parses kept bytes start (parser >>= next) outcome := by
  obtain ⟨stop, parses⟩ := rest
  exact ⟨stop, .step first parses⟩

theorem get_bind {next : Reader → ReaderM β} {outcome : Except Error β}
    (rest : Parses kept bytes start (next ⟨.ofBytes bytes, start⟩) outcome) :
    Parses kept bytes start (get >>= next) outcome := rest

/-- A parser on a string of its own. -/
theorem run' {parser : ReaderM α} {outcome : Except Error α}
    (parses : Parses kept bytes start parser outcome) :
    Answers kept (parser.run' ⟨.ofBytes bytes, start⟩) outcome := by
  intro session holds
  obtain ⟨_, parses⟩ := parses
  obtain ⟨left, position, kept, ran, -⟩ := parses session holds
  have whole : (parser.run' ⟨.ofBytes bytes, start⟩).run.run session = (outcome, left) := by
    show ((((parser.run.run _).run session).1.1, ((parser.run.run _).run session).2) : _ × Session) = _
    rw [ran]
  exact ⟨congrArg Prod.fst whole, by rw [SessionM.after, whole]; exact kept⟩

end Parses

end SealedContent
