import SealedContent.Proofs.Storage.Reads
import SealedContent.Proofs.Storage.Workspace

/-! # Parsers on two storages

`YieldsAt` says what one run of a parser gives and where it stops, if it succeeds. `Alike` compares the runs on two
storages: where both succeed, the readers stop at one position and the values are related. It is closed under the
operations of the reader monad, and a field gives the same on both if its bytes are the same there, whatever else
the storages hold.
-/

namespace SealedContent

variable {α β : Type}

/-- A storage with the sessions in which a read of it gives nothing but its bytes. -/
structure Readable where
  storage : Storage
  kept : Session → Prop
  reads : ∀ offset length, ∃ outcome, Answers kept (storage.read offset length) outcome ∧
    ∀ bytes, outcome = .ok bytes → storage.byte?.window? offset length = some bytes

/-- A node can be read in the sessions that remember nothing else than its graph gives. -/
def Readable.ofNode {nodes : List Storage} (graph : Coherent nodes) {node : Storage} (member : node ∈ nodes) :
    Readable where
  storage := node
  kept := Remembers nodes
  reads offset length := ⟨_, node.read_answers graph member offset length, fun _ => outcome_bytes graph member⟩

def Workspace.Sound.readable {w : Workspace} (sound : w.Sound) {node : Storage} (member : node ∈ w.nodes) :
    Readable :=
  .ofNode sound.graph member

/-- All bytes that are there are read. -/
def Readable.Complete (side : Readable) : Prop :=
  ∀ {offset length : Nat} {bytes : Bytes}, offset + length ≤ side.storage.size →
    side.storage.byte?.window? offset length = some bytes →
    Answers side.kept (side.storage.read offset length) (.ok bytes)

theorem Readable.complete_ofNode {nodes : List Storage} (graph : Coherent nodes) {node : Storage}
    (member : node ∈ nodes) (fits : node.Fits) : (Readable.ofNode graph member).Complete := by
  intro offset length bytes inside found
  have gives := (outcome_eq_ok_iff graph member fits inside).mpr found
  exact gives ▸ node.read_answers graph member offset length

/-! ## One run -/

theorem ReaderM.ok_of_bind {parser : ReaderM α} {next : α → ReaderM β} {reader last : Reader} {value : β}
    {session left : Session} (ran : ((parser >>= next).run.run reader).run session = ((.ok value, last), left)) :
    ∃ first middle between, (parser.run.run reader).run session = ((.ok first, middle), between) ∧
      ((next first).run.run middle).run between = ((.ok value, last), left) := by
  simp only [ExceptT.run, StateT.run] at *
  simp only [Bind.bind, ExceptT.bind, ExceptT.mk, StateT.bind, ExceptT.bindCont] at ran
  cases both : parser reader session with
  | mk outcome between =>
    obtain ⟨outcome, middle⟩ := outcome
    rw [both] at ran
    cases outcome with
    | error error => cases ran
    | ok first => exact ⟨first, middle, between, rfl, ran⟩

/-- A success of the parser gives a value with the property and leaves the reader at `stop`. -/
def YieldsAt (side : Readable) (start : Nat) (parser : ReaderM α) (property : α → Prop) (stop : Nat) : Prop :=
  ∀ session, side.kept session → ∀ value reader left,
    (parser.run.run ⟨side.storage, start⟩).run session = ((.ok value, reader), left) →
    property value ∧ reader = ⟨side.storage, stop⟩ ∧ side.kept left

namespace YieldsAt

variable {side : Readable} {start middle stop : Nat} {property : α → Prop}

theorem pure {value : α} (holds : property value) : YieldsAt side start (Pure.pure value) property start := by
  intro session kept value reader left ran
  cases ran
  exact ⟨holds, rfl, kept⟩

theorem throw (error : Error) : YieldsAt side start (MonadExcept.throw error : ReaderM α) property stop := by
  intro session kept value reader left ran
  cases ran

theorem throw_bind (error : Error) (next : α → ReaderM β) {final : β → Prop} :
    YieldsAt side start ((MonadExcept.throw error : ReaderM α) >>= next) final stop := by
  intro session kept value reader left ran
  cases ran

theorem bind {parser : ReaderM α} {next : α → ReaderM β} {final : β → Prop}
    (first : YieldsAt side start parser property middle)
    (rest : ∀ value, property value → YieldsAt side middle (next value) final stop) :
    YieldsAt side start (parser >>= next) final stop := by
  intro session kept value reader left ran
  obtain ⟨early, between, after, ran, last⟩ := ReaderM.ok_of_bind ran
  obtain ⟨holds, rfl, kept⟩ := first session kept early between after ran
  exact rest early holds after kept value reader left last

theorem get_bind {next : Reader → ReaderM α} (rest : YieldsAt side start (next ⟨side.storage, start⟩) property stop) :
    YieldsAt side start (get >>= next) property stop := rest

theorem set (position : Nat) : YieldsAt side start (MonadStateOf.set (Reader.mk side.storage position) : ReaderM PUnit)
    (fun _ => True) position := by
  intro session kept value reader left ran
  cases ran
  exact ⟨trivial, rfl, kept⟩

/-- A read of the storage itself. -/
theorem ofSession (offset length : Nat) :
    YieldsAt side start (ReaderM.ofSession (side.storage.read offset length))
      (fun bytes => side.storage.byte?.window? offset length = some bytes) start := by
  obtain ⟨outcome, answers, served⟩ := side.reads offset length
  intro session kept value reader left ran
  obtain ⟨gives, keeps⟩ := answers session kept
  have whole : (((side.storage.read offset length).result session, Reader.mk side.storage start),
      (side.storage.read offset length).after session) = ((Except.ok value, reader), left) := ran
  simp only [Prod.mk.injEq] at whole
  obtain ⟨⟨result, rfl⟩, rfl⟩ := whole
  rw [gives] at result
  exact ⟨served _ result, rfl, keeps⟩

theorem fetch {offset length : Nat} (change : Error → Error) :
    YieldsAt side start (ExceptT.mk do
      let result ← StateT.lift (side.storage.read offset length).run
      return result.mapError change)
      (fun bytes => side.storage.byte?.window? offset length = some bytes) start := by
  obtain ⟨outcome, answers, served⟩ := side.reads offset length
  intro session kept value reader left ran
  obtain ⟨gives, keeps⟩ := answers session kept
  have whole : ((((side.storage.read offset length).result session).mapError change, Reader.mk side.storage start),
      (side.storage.read offset length).after session) = ((Except.ok value, reader), left) := ran
  simp only [Prod.mk.injEq] at whole
  obtain ⟨⟨result, rfl⟩, rfl⟩ := whole
  rw [gives] at result
  cases outcome with
  | error error => cases result
  | ok bytes =>
    cases result
    exact ⟨served _ rfl, rfl, keeps⟩

theorem exactly {count : Nat} (nonempty : 0 < count) : YieldsAt side start (ReaderM.exactly count)
    (fun bytes => side.storage.byte?.window? start count = some bytes) (start + count) := by
  by_cases enough : start + count ≤ side.storage.size
  · have read : YieldsAt side start (ReaderM.read count)
        (fun bytes => side.storage.byte?.window? start count = some bytes) (start + count) := by
      apply get_bind
      dsimp only
      rw [if_neg (by omega), Nat.min_eq_left (by omega)]
      exact bind (fetch _) fun bytes found => bind (set _) fun _ _ => pure found
    refine bind read fun bytes found => ?_
    split
    · exact throw _
    · exact pure found
  -- what ends early is refused
  · have read : ∃ middle, YieldsAt side start (ReaderM.read count) (fun bytes => bytes.length < count) middle := by
      by_cases behind : side.storage.size ≤ start
      · refine ⟨start, get_bind ?_⟩
        dsimp only
        rw [if_pos behind]
        exact pure nonempty
      · refine ⟨start + min count (side.storage.size - start), get_bind ?_⟩
        dsimp only
        rw [if_neg behind]
        refine bind (fetch _) fun bytes found => bind (set _) fun _ _ => pure ?_
        rw [ByteMap.length_of_window? found]
        omega
    obtain ⟨middle, read⟩ := read
    refine bind read fun bytes short => ?_
    rw [if_pos short]
    exact throw_bind _ _

theorem seekTo {offset : Nat} (short : offset < UInt64.size) :
    YieldsAt side start (ReaderM.seekTo offset) (fun _ => True) offset := by
  have moved : YieldsAt side start (ReaderM.seek (.start offset)) (fun _ => True) offset := by
    apply get_bind
    dsimp only
    rw [if_neg (by omega)]
    have position : (offset : Int).toNat % UInt64.size = offset := Nat.mod_eq_of_lt short
    rw [position]
    exact bind (set offset) fun _ _ => pure trivial
  exact bind moved fun _ _ => pure trivial

end YieldsAt

/-! ## Two runs -/

/-- Both storages hold the same bytes from one position up to another. -/
def SameBetween (left right : Readable) (first last : Nat) : Prop :=
  ∀ position, first ≤ position → position < last → left.storage.byte? position = right.storage.byte? position

theorem SameBetween.mono {left right : Readable} {first first' last last' : Nat}
    (same : SameBetween left right first last) (low : first ≤ first') (high : last' ≤ last) :
    SameBetween left right first' last' :=
  fun position above below => same position (Nat.le_trans low above) (Nat.lt_of_lt_of_le below high)

theorem SameBetween.of_window {left right : Readable} {first length : Nat} {bytes : Bytes}
    (found : left.storage.byte?.window? first length = some bytes)
    (found' : right.storage.byte?.window? first length = some bytes) :
    SameBetween left right first (first + length) := by
  obtain ⟨-, all⟩ := ByteMap.window?_eq_some_iff.mp found
  obtain ⟨-, all'⟩ := ByteMap.window?_eq_some_iff.mp found'
  intro position above below
  have inside : position - first < length := by omega
  have same := (all _ inside).trans (all' _ inside).symm
  rwa [Nat.add_sub_cancel' above] at same

/-- Where both parsers succeed, they leave their readers at one position, and it and their values are related. Only
    values that are expected of the first one count. -/
def Alike (left right : Readable) (start : Nat) (parser parser' : ReaderM α) (expected : α → Prop)
    (related : Nat → α → α → Prop) : Prop :=
  ∀ session session', left.kept session → right.kept session' → ∀ value value' reader reader' rest rest',
    (parser.run.run ⟨left.storage, start⟩).run session = ((.ok value, reader), rest) →
    (parser'.run.run ⟨right.storage, start⟩).run session' = ((.ok value', reader'), rest') → expected value →
    ∃ stop, related stop value value' ∧ reader = ⟨left.storage, stop⟩ ∧ reader' = ⟨right.storage, stop⟩ ∧
      left.kept rest ∧ right.kept rest'

/-- The same value, with the readers at a known position. -/
def SameAt (stop position : Nat) (value value' : α) : Prop := position = stop ∧ value = value'

/-- The same value, with the readers anywhere. -/
def SameValue (_ : Nat) (value value' : α) : Prop := value = value'

namespace Alike

variable {left right : Readable} {start middle stop : Nat} {parser parser' : ReaderM α} {expected : α → Prop}
  {related : Nat → α → α → Prop}

/-! ### The operations -/

theorem pure {value value' : α} (holds : expected value → related start value value') :
    Alike left right start (Pure.pure value) (Pure.pure value') expected related := by
  intro session session' kept kept' _ _ _ _ _ _ ran ran' wanted
  cases ran
  cases ran'
  exact ⟨start, holds wanted, rfl, rfl, kept, kept'⟩

theorem throw (error : Error) : Alike left right start (MonadExcept.throw error) parser' expected related := by
  intro session session' kept kept' _ _ _ _ _ _ ran
  cases ran

theorem throw_bind (error : Error) (next : β → ReaderM α) :
    Alike left right start ((MonadExcept.throw error : ReaderM β) >>= next) parser' expected related := by
  intro session session' kept kept' _ _ _ _ _ _ ran
  cases ran

theorem throw_bind_right (error : Error) (next : β → ReaderM α) :
    Alike left right start parser ((MonadExcept.throw error : ReaderM β) >>= next) expected related := by
  intro session session' kept kept' _ _ _ _ _ _ _ ran'
  cases ran'

/-- Two runs that say enough about their values. -/
theorem of_yieldsAt {property property' : α → Prop} (first : YieldsAt left start parser property stop)
    (second : YieldsAt right start parser' property' stop)
    (both : ∀ value value', property value → property' value' → related stop value value') :
    Alike left right start parser parser' expected related := by
  intro session session' kept kept' value value' reader reader' rest rest' ran ran' _
  obtain ⟨holds, rfl, keeps⟩ := first session kept value reader rest ran
  obtain ⟨holds', rfl, keeps'⟩ := second session' kept' value' reader' rest' ran'
  exact ⟨stop, both value value' holds holds', rfl, rfl, keeps, keeps'⟩

theorem bind {next next' : α → ReaderM β} {expected : β → Prop} {final : Nat → β → β → Prop}
    (first : Alike left right start parser parser' (fun _ => True) related)
    (rest : ∀ middle value value', related middle value value' →
      Alike left right middle (next value) (next' value') expected final) :
    Alike left right start (parser >>= next) (parser' >>= next') expected final := by
  intro session session' kept kept' value value' reader reader' after after' ran ran' wanted
  obtain ⟨early, between, session, ran, last⟩ := ReaderM.ok_of_bind ran
  obtain ⟨early', between', session', ran', last'⟩ := ReaderM.ok_of_bind ran'
  obtain ⟨middle, holds, rfl, rfl, kept, kept'⟩ :=
    first _ _ kept kept' early early' between between' session session' ran ran' trivial
  exact rest middle early early' holds session session' kept kept' value value' reader reader' after after' last last'
    wanted

/-- A value that is the same on both storages, and what comes after it. -/
theorem step {next next' : α → ReaderM β} {expected : β → Prop} {final : Nat → β → β → Prop}
    (first : Alike left right start parser parser' (fun _ => True) (SameAt middle))
    (rest : ∀ value, Alike left right middle (next value) (next' value) expected final) :
    Alike left right start (parser >>= next) (parser' >>= next') expected final := by
  refine bind first fun _ value _ same => ?_
  obtain ⟨rfl, rfl⟩ := same
  exact rest value

theorem imp {stronger : Nat → α → α → Prop} (agree : Alike left right start parser parser' (fun _ => True) stronger)
    (less : ∀ position value value', stronger position value value' → expected value →
      related position value value') :
    Alike left right start parser parser' expected related := by
  intro session session' kept kept' value value' reader reader' after after' ran ran' wanted
  obtain ⟨position, holds, rest⟩ :=
    agree session session' kept kept' value value' reader reader' after after' ran ran' trivial
  exact ⟨position, less position value value' holds wanted, rest⟩

/-- A value that is read and changed. -/
theorem map {change change' : α → β} {expected : β → Prop} {final : Nat → β → β → Prop}
    (agree : Alike left right start parser parser' (fun value => expected (change value))
      (fun position value value' => final position (change value) (change' value'))) :
    Alike left right start (parser >>= fun value => Pure.pure (change value))
      (parser' >>= fun value => Pure.pure (change' value)) expected final := by
  intro session session' kept kept' value value' reader reader' after after' ran ran' wanted
  obtain ⟨early, between, session, ran, last⟩ := ReaderM.ok_of_bind ran
  obtain ⟨early', between', session', ran', last'⟩ := ReaderM.ok_of_bind ran'
  cases last
  cases last'
  exact agree _ _ kept kept' early early' _ _ _ _ ran ran' wanted

/-- What is expected of every value is at hand. -/
theorem assume {condition : Prop}
    (agree : condition → Alike left right start parser parser' (fun _ => True) related) :
    Alike left right start parser parser' (fun _ => condition) related := by
  intro session session' kept kept' value value' reader reader' after after' ran ran' holds
  exact agree holds session session' kept kept' value value' reader reader' after after' ran ran' trivial

theorem lift (outcome : Except Error α) :
    Alike left right start (liftM outcome : ReaderM α) (liftM outcome) expected (SameAt start) := by
  cases outcome with
  | ok value => exact pure fun _ => ⟨rfl, rfl⟩
  | error error => exact throw error

theorem get_bind {next next' : Reader → ReaderM α}
    (rest : Alike left right start (next ⟨left.storage, start⟩) (next' ⟨right.storage, start⟩) expected related) :
    Alike left right start (get >>= next) (get >>= next') expected related := rest

/-! ### Fields -/

theorem seekTo {offset : Nat} {expected : Unit → Prop} (short : offset < UInt64.size) :
    Alike left right start (ReaderM.seekTo offset) (ReaderM.seekTo offset) expected (SameAt offset) :=
  of_yieldsAt (.seekTo short) (.seekTo short) fun _ _ _ _ => ⟨rfl, rfl⟩

theorem exactly {count : Nat} {expected : Bytes → Prop} (nonempty : 0 < count)
    (same : SameBetween left right start (start + count)) :
    Alike left right start (ReaderM.exactly count) (ReaderM.exactly count) expected (SameAt (start + count)) := by
  refine of_yieldsAt (.exactly nonempty) (.exactly nonempty) fun bytes bytes' found found' => ⟨rfl, ?_⟩
  have windows : left.storage.byte?.window? start count = right.storage.byte?.window? start count :=
    ByteMap.window?_congr fun i inside => same (start + i) (by omega) (by omega)
  rw [windows, found'] at found
  exact (Option.some.inj found).symm

theorem number {width : Nat} {expected : Nat → Prop} (nonempty : 0 < width)
    (same : SameBetween left right start (start + width)) :
    Alike left right start (ReaderM.number width) (ReaderM.number width) expected (SameAt (start + width)) :=
  step (exactly nonempty same) fun _ => .pure fun _ => ⟨rfl, rfl⟩

theorem block {expected : Aes.Block → Prop} (same : SameBetween left right start (start + 16)) :
    Alike left right start ReaderM.block ReaderM.block expected (SameAt (start + 16)) :=
  step (exactly (by decide) same) fun _ => .pure fun _ => ⟨rfl, rfl⟩

theorem skip {count : Nat} {expected : Unit → Prop} (nonempty : 0 < count)
    (same : SameBetween left right start (start + count)) :
    Alike left right start (ReaderM.skip count) (ReaderM.skip count) expected (SameAt (start + count)) :=
  step (exactly nonempty same) fun _ => .pure fun _ => ⟨rfl, rfl⟩

/-- Items of one size one after the other. -/
theorem repeated {item : ReaderM α} {expected : List α → Prop} {size : Nat} (count : Nat) :
    ∀ {start : Nat}, (∀ index < count, Alike left right (start + index * size) item item (fun _ => True)
        (SameAt (start + (index + 1) * size))) →
      Alike left right start (ReaderM.repeated count item) (ReaderM.repeated count item) expected
        (fun position values values' => SameAt (start + count * size) position values values' ∧
          values.length = count) := by
  induction count generalizing expected with
  | zero =>
    intro start _
    rw [Nat.zero_mul, Nat.add_zero]
    exact .pure fun _ => ⟨⟨rfl, rfl⟩, rfl⟩
  | succ count inductionHypothesis =>
    intro start each
    have first := each 0 (by omega)
    rw [Nat.zero_mul, Nat.add_zero, Nat.zero_add, Nat.one_mul] at first
    refine first.step fun value => ?_
    have shift : ∀ before, start + (before + 1) * size = start + size + before * size := by
      intro before
      rw [Nat.succ_mul]
      omega
    have rest := @inductionHypothesis (fun _ => True) (start + size) fun index inside => by
      rw [← shift, ← shift]
      exact each (index + 1) (by omega)
    rw [← shift] at rest
    refine rest.bind fun _ values _ same => .pure fun _ => ?_
    obtain ⟨⟨reached, rfl⟩, long⟩ := same
    exact ⟨⟨reached, rfl⟩, congrArg Nat.succ long⟩

end Alike

theorem ReaderM.run'_eq_ok {parser : ReaderM α} {reader : Reader} {session : Session} {value : α}
    (gives : (parser.run' reader).result session = .ok value) :
    ∃ last left, (parser.run.run reader).run session = ((.ok value, last), left) := by
  have same : (parser.run' reader).result session = ((parser.run.run reader).run session).1.1 := rfl
  exact ⟨_, _, Prod.ext (Prod.ext (same.symm.trans gives) rfl) rfl⟩

end SealedContent
