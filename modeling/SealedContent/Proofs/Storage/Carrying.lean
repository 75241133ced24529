import SealedContent.Proofs.Storage.Taking
import SealedContent.Proofs.Storage.Yielding

/-! # Parsers at another place

A parser that succeeds on one storage succeeds on any other that holds what it has read, wherever that stands there:
`CarriesOver`. It is closed under the operations of the reader monad as long as a parser counts its seeks from where it
began. The readers stop at the same distance behind the two places.
-/

namespace SealedContent

variable {α β ι : Type}

/-! ## Copies -/

/-- What can be read of one storage from a place on, can be read of another one from another place on. -/
structure Copy where
  left : Readable
  right : Readable
  source : Nat
  target : Nat
  bytes : ∀ i byte, left.storage.byte? (source + i) = some byte → right.storage.byte? (target + i) = some byte
  room : left.storage.size + target ≤ right.storage.size + source
  outside : ∀ position, left.storage.size ≤ position → left.storage.byte? position = none
  complete : right.Complete
  left_lt : left.storage.size < UInt64.size
  right_lt : right.storage.size < UInt64.size

namespace Copy

variable (copy : Copy) {distance count : Nat} {bytes : Bytes}

theorem window? (found : copy.left.storage.byte?.window? (copy.source + distance) count = some bytes) :
    copy.right.storage.byte?.window? (copy.target + distance) count = some bytes := by
  obtain ⟨long, all⟩ := ByteMap.window?_eq_some_iff.mp found
  refine ByteMap.window?_eq_some_iff.mpr ⟨long, fun i inside => ?_⟩
  have there := all i inside
  rw [List.getElem?_eq_getElem (by omega), Nat.add_assoc] at there
  rw [List.getElem?_eq_getElem (by omega), Nat.add_assoc]
  exact copy.bytes _ _ there

theorem inside (within : copy.source + distance ≤ copy.left.storage.size)
    (found : copy.left.storage.byte?.window? (copy.source + distance) count = some bytes) :
    copy.source + (distance + count) ≤ copy.left.storage.size := by
  by_contra beyond
  have gone := copy.outside (copy.source + distance + (count - 1)) (by omega)
  rw [ByteMap.window?_eq_none (by omega) gone] at found
  cases found

end Copy

/-- Where the first parser succeeds at a distance behind the source, the second one succeeds at the same distance
    behind the target. The readers are left at one distance, and it and the values are related. -/
def CarriesOver (copy : Copy) (distance : Nat) (parser parser' : ReaderM α) (related : Nat → α → α → Prop) : Prop :=
  copy.source + distance ≤ copy.left.storage.size →
  ∀ session session', copy.left.kept session → copy.right.kept session' → ∀ value reader rest,
    (parser.run.run ⟨copy.left.storage, copy.source + distance⟩).run session = ((.ok value, reader), rest) →
    ∃ further value' rest', related further value value' ∧
      (reader = ⟨copy.left.storage, copy.source + further⟩ ∧ copy.source + further ≤ copy.left.storage.size ∧
        copy.left.kept rest) ∧
      (parser'.run.run ⟨copy.right.storage, copy.target + distance⟩).run session' =
        ((.ok value', ⟨copy.right.storage, copy.target + further⟩), rest') ∧ copy.right.kept rest'

namespace CarriesOver

variable {copy : Copy} {distance middle : Nat} {parser parser' : ReaderM α} {related : Nat → α → α → Prop}

/-! ### The operations -/

theorem pure {value value' : α} (holds : related distance value value') :
    CarriesOver copy distance (Pure.pure value) (Pure.pure value') related := by
  intro inside session session' kept kept' _ _ _ ran
  cases ran
  exact ⟨distance, value', session', holds, ⟨rfl, inside, kept⟩, rfl, kept'⟩

theorem throw (error : Error) : CarriesOver copy distance (MonadExcept.throw error) parser' related := by
  intro inside session session' kept kept' _ _ _ ran
  cases ran

theorem lift (outcome : Except Error α) :
    CarriesOver copy distance (liftM outcome : ReaderM α) (liftM outcome) (SameAt distance) := by
  cases outcome with
  | ok value => exact pure ⟨rfl, rfl⟩
  | error error => exact throw error

theorem bind {next next' : α → ReaderM β} {final : Nat → β → β → Prop}
    (first : CarriesOver copy distance parser parser' related)
    (rest : ∀ middle value value', related middle value value' →
      CarriesOver copy middle (next value) (next' value') final) :
    CarriesOver copy distance (parser >>= next) (parser' >>= next') final := by
  intro inside session session' kept kept' value reader left ran
  obtain ⟨early, between, after, ran, last⟩ := ReaderM.ok_of_bind ran
  obtain ⟨middle, early', after', holds, ⟨rfl, within, kept⟩, ran', kept'⟩ :=
    first inside session session' kept kept' early between after ran
  obtain ⟨further, value', left', related, stops, last', keeps'⟩ :=
    rest middle early early' holds within after after' kept kept' value reader left last
  exact ⟨further, value', left', related, stops, (ReaderM.run_bind_ok ran').trans last', keeps'⟩

/-- A value that is the same on both storages, and what comes after it. -/
theorem step {next next' : α → ReaderM β} {final : Nat → β → β → Prop}
    (first : CarriesOver copy distance parser parser' (SameAt middle))
    (rest : ∀ value, CarriesOver copy middle (next value) (next' value) final) :
    CarriesOver copy distance (parser >>= next) (parser' >>= next') final := by
  refine bind first fun _ value _ same => ?_
  obtain ⟨rfl, rfl⟩ := same
  exact rest value

/-- Where the readers stand is the only thing that differs. -/
theorem position_bind {next next' : Nat → ReaderM β} {final : Nat → β → β → Prop}
    (rest : CarriesOver copy distance (next (copy.source + distance)) (next' (copy.target + distance)) final) :
    CarriesOver copy distance (ReaderM.position >>= next) (ReaderM.position >>= next') final := rest

/-! ### Fields -/

/-- Both runs at once: what the first one has found stands at the other place too. -/
theorem of_found {parser : ReaderM Bytes} {count : Nat}
    (yields : ∀ (side : Readable) start, YieldsAt side start parser
      (fun bytes => side.storage.byte?.window? start count = some bytes) (start + count))
    (takes : ∀ (side : Readable) start bytes, side.Complete → start + count ≤ side.storage.size →
      side.storage.byte?.window? start count = some bytes →
      Takes side.kept side.storage start parser bytes (start + count)) :
    CarriesOver copy distance parser parser (SameAt (distance + count)) := by
  intro inside session session' kept kept' bytes reader left ran
  obtain ⟨found, rfl, keeps⟩ := yields copy.left _ session kept bytes reader left ran
  have within := copy.inside inside found
  have room := copy.room
  obtain ⟨left', keeps', ran'⟩ := takes copy.right _ bytes copy.complete (by omega) (copy.window? found) session' kept'
  rw [Nat.add_assoc] at ran'
  rw [Nat.add_assoc]
  exact ⟨distance + count, bytes, left', ⟨rfl, rfl⟩, ⟨rfl, within, keeps⟩, ran', keeps'⟩

theorem exactly (count : Nat) :
    CarriesOver copy distance (ReaderM.exactly count) (ReaderM.exactly count) (SameAt (distance + count)) :=
  of_found (fun _ _ => .taken count) fun _ _ _ complete => .exactly_found complete

theorem field (length : Nat) :
    CarriesOver copy distance (ReaderM.field length) (ReaderM.field length) (SameAt (distance + length)) :=
  of_found (fun _ _ => .field length) fun _ _ _ complete => .field_found complete

theorem number (width : Nat) :
    CarriesOver copy distance (ReaderM.number width) (ReaderM.number width) (SameAt (distance + width)) :=
  step (exactly width) fun _ => .pure ⟨rfl, rfl⟩

theorem block : CarriesOver copy distance ReaderM.block ReaderM.block (SameAt (distance + 16)) :=
  step (exactly 16) fun _ => .pure ⟨rfl, rfl⟩

theorem skip (count : Nat) :
    CarriesOver copy distance (ReaderM.skip count) (ReaderM.skip count) (SameAt (distance + count)) :=
  step (exactly count) fun _ => .pure ⟨rfl, rfl⟩

theorem magic (text : String) :
    CarriesOver copy distance (ReaderM.magic text) (ReaderM.magic text) (SameAt (distance + text.length)) := by
  refine step (exactly text.length) fun bytes => ?_
  split
  · exact throw _
  · exact pure ⟨rfl, rfl⟩

/-! ### Loops -/

theorem mapM {action : ι → ReaderM α} {items : List ι}
    (each : ∀ item ∈ items, ∀ distance, CarriesOver copy distance (action item) (action item) SameValue) :
    CarriesOver copy distance (items.mapM action) (items.mapM action) SameValue := by
  induction items generalizing distance with
  | nil => exact pure rfl
  | cons item rest inductionHypothesis =>
    rw [List.mapM_cons]
    refine bind (each item (.head _) distance) fun _ value value' same => ?_
    refine bind (inductionHypothesis fun other among => each other (.tail _ among)) fun _ values values' all => ?_
    rw [show value' = value from same.symm, show values' = values from all.symm]
    exact pure rfl

theorem repeated {item : ReaderM α} (count : Nat)
    (each : ∀ distance, CarriesOver copy distance item item SameValue) :
    CarriesOver copy distance (ReaderM.repeated count item) (ReaderM.repeated count item) SameValue := by
  induction count generalizing distance with
  | zero => exact pure rfl
  | succ count inductionHypothesis =>
    refine bind (each distance) fun _ value value' same => bind inductionHypothesis fun _ values values' all => ?_
    rw [show value' = value from same.symm, show values' = values from all.symm]
    exact pure rfl

/-! ### Seeks -/

theorem seekTo {place : Nat} (within : copy.source + place ≤ copy.left.storage.size) :
    CarriesOver copy distance (ReaderM.seekTo (copy.source + place)) (ReaderM.seekTo (copy.target + place))
      (SameAt place) := by
  intro inside session session' kept kept' value reader left ran
  have room := copy.room
  have leftShort := copy.left_lt
  have rightShort := copy.right_lt
  obtain ⟨-, rfl, keeps⟩ := YieldsAt.seekTo (by omega) session kept value reader left ran
  have moves : Takes copy.right.kept copy.right.storage (copy.target + distance)
      (ReaderM.seekTo (copy.target + place)) () (copy.target + place) := .seekTo (by omega)
  obtain ⟨left', keeps', ran'⟩ := moves session' kept'
  exact ⟨place, (), left', ⟨rfl, rfl⟩, ⟨rfl, within, keeps⟩, ran', keeps'⟩

/-- A seek to where the readers are. -/
theorem stay : CarriesOver copy distance (ReaderM.seekTo (copy.source + distance))
    (ReaderM.seekTo (copy.target + distance)) (SameAt distance) :=
  fun inside => seekTo inside inside

/-- A seek to a place from which something is read lies inside of the storage. -/
theorem jump {place count : Nat} {next next' : Bytes → ReaderM β} {final : Nat → β → β → Prop} (nonempty : 0 < count)
    (short : copy.source + place < UInt64.size)
    (rest : ∀ bytes, CarriesOver copy (place + count) (next bytes) (next' bytes) final) :
    CarriesOver copy distance (do ReaderM.seekTo (copy.source + place); next (← ReaderM.exactly count))
      (do ReaderM.seekTo (copy.target + place); next' (← ReaderM.exactly count)) final := by
  intro inside session session' kept kept' value reader left ran
  obtain ⟨_, between, after, moved, read⟩ := ReaderM.ok_of_bind ran
  obtain ⟨-, rfl, keeps⟩ := YieldsAt.seekTo short session kept _ between after moved
  obtain ⟨bytes, _, _, taken, -⟩ := ReaderM.ok_of_bind read
  obtain ⟨found, -, -⟩ := YieldsAt.taken count after keeps bytes _ _ taken
  have within : copy.source + place ≤ copy.left.storage.size := by
    by_contra beyond
    have gone := copy.outside (copy.source + place + 0) (by omega)
    rw [ByteMap.window?_eq_none nonempty gone] at found
    cases found
  exact step (seekTo within) (fun _ => step (exactly count) rest) inside session session' kept kept' value reader left
    ran

/-- Both parsers from where they begin. -/
theorem run' (carries : CarriesOver copy 0 parser parser' related) (inside : copy.source ≤ copy.left.storage.size)
    {session session' left : Session} (kept : copy.left.kept session) (kept' : copy.right.kept session') {value : α}
    {reader : Reader}
    (ran : (parser.run.run ⟨copy.left.storage, copy.source⟩).run session = ((.ok value, reader), left)) :
    ∃ further value', related further value value' ∧
      (parser'.run' ⟨copy.right.storage, copy.target⟩).result session' = .ok value' := by
  obtain ⟨further, value', left', holds, -, ran', -⟩ := carries inside session session' kept kept' value reader left ran
  refine ⟨further, value', holds, ?_⟩
  show ((parser'.run.run ⟨copy.right.storage, copy.target + 0⟩).run session').1.1 = _
  rw [ran']

end CarriesOver

end SealedContent
