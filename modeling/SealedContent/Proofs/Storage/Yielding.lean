import SealedContent.Proofs.Storage.Agreement
import SealedContent.Proofs.Windows

/-! # What fields yield

A parser that succeeds has read its fields: each is the window of the storage at the place of the reader, whatever
the storage holds elsewhere. `YieldsAt` is followed here through the fields and the loops of parsers. `Ensures` says
the same of a parser that may stop anywhere.
-/

namespace SealedContent

variable {α β ι : Type} {side : Readable} {start : Nat}

namespace YieldsAt

theorem lift (outcome : Except Error α) :
    YieldsAt side start (liftM outcome : ReaderM α) (fun value => outcome = .ok value) start := by
  cases outcome with
  | ok value => exact pure rfl
  | error error => exact throw error

theorem position : YieldsAt side start ReaderM.position (fun value => value = start) start := get_bind (pure rfl)

/-! ## Fields -/

theorem read {count : Nat} (inside : start + count ≤ side.storage.size) : YieldsAt side start (ReaderM.read count)
    (fun bytes => side.storage.byte?.window? start count = some bytes) (start + count) := by
  apply get_bind
  dsimp only
  split
  · obtain rfl : count = 0 := by omega
    exact pure rfl
  · rw [Nat.min_eq_left (by omega)]
    exact bind (fetch _) fun bytes found => bind (set _) fun _ _ => pure found

/-- The bytes that were taken stand at the place of the reader. -/
theorem taken (count : Nat) : YieldsAt side start (ReaderM.exactly count)
    (fun bytes => side.storage.byte?.window? start count = some bytes) (start + count) := by
  cases count with
  | succ count => exact exactly (Nat.succ_pos count)
  | zero =>
    have nothing : YieldsAt side start (ReaderM.read 0) (fun bytes => some [] = some bytes) start := by
      by_cases inside : start ≤ side.storage.size
      · exact read inside
      · apply get_bind
        dsimp only
        rw [if_pos (by omega)]
        exact pure rfl
    exact bind nothing fun bytes found => by
      rw [if_neg (Nat.not_lt_zero _)]
      exact pure found

theorem number (width : Nat) :
    YieldsAt side start (ReaderM.number width) (fun value => value < 256 ^ width) (start + width) := by
  refine bind (taken width) fun bytes found => pure ?_
  have small := LittleEndian.decode_lt bytes
  rwa [ByteMap.length_of_window? found] at small

theorem skip (count : Nat) : YieldsAt side start (ReaderM.skip count) (fun _ => True) (start + count) :=
  bind (taken count) fun _ _ => pure trivial

theorem magic (text : String) : YieldsAt side start (ReaderM.magic text)
    (fun _ => side.storage.byte?.window? start text.length = some (.ofAscii text)) (start + text.length) := by
  refine bind (taken text.length) fun bytes found => ?_
  split
  · exact throw _
  · next same =>
    rw [ne_eq, not_not] at same
    exact pure (same ▸ found)

/-- The pieces of a growing buffer are the bytes at the place of the reader. -/
theorem pieces (held count : Nat) {start : Nat} (enough : count ≤ side.storage.size - start) :
    YieldsAt side start ((ReaderM.pieces held count).mapM ReaderM.read)
      (fun parts => side.storage.byte?.window? start count = some parts.flatten) (start + count) := by
  fun_induction ReaderM.pieces held count generalizing start with
  | case1 held => exact pure rfl
  | case2 held count some piece =>
    -- the case has no name for its hypothesis behind the local piece
    rename_i inductionHypothesis
    have within : piece ≤ count := Nat.min_le_right _ _
    have rest := @inductionHypothesis (start + piece) (by omega)
    rw [Nat.add_assoc, Nat.add_sub_cancel' within] at rest
    rw [List.mapM_cons]
    refine bind (read (by omega)) fun bytes found => bind rest fun parts more => pure ?_
    have whole := ByteMap.window?_append found more
    rwa [Nat.add_sub_cancel' within] at whole

theorem field (length : Nat) : YieldsAt side start (ReaderM.field length)
    (fun bytes => side.storage.byte?.window? start length = some bytes) (start + length) := by
  let count := min length (side.storage.size - start)
  have upTo : YieldsAt side start (ReaderM.upTo length)
      (fun bytes => side.storage.byte?.window? start count = some bytes) (start + count) :=
    get_bind (bind (pieces 0 count (Nat.min_le_right _ _)) fun parts found => pure found)
  refine bind upTo fun bytes found => ?_
  have long := ByteMap.length_of_window? found
  split
  · exact throw_bind _ _
  · next whole =>
    rw [not_not] at whole
    rw [whole] at long
    rw [← long] at found ⊢
    exact pure found

/-! ## Loops -/

theorem mapM {action : ι → ReaderM α} {property : α → Prop} {items : List ι}
    (each : ∀ item ∈ items, YieldsAt side start (action item) property start) :
    YieldsAt side start (items.mapM action) (fun values => ∀ value ∈ values, property value) start := by
  induction items with
  | nil => exact pure fun value member => absurd member List.not_mem_nil
  | cons item rest inductionHypothesis =>
    rw [List.mapM_cons]
    refine bind (each item (.head _)) fun value holds => ?_
    refine bind (inductionHypothesis fun other among => each other (.tail _ among)) fun values all => pure ?_
    exact List.forall_mem_cons.mpr ⟨holds, all⟩

/-- Items of one size one after the other. -/
theorem repeated {item : ReaderM α} {property : α → Prop} {size : Nat} (count : Nat) {start : Nat}
    (each : ∀ start, YieldsAt side start item property (start + size)) :
    YieldsAt side start (ReaderM.repeated count item) (fun values => ∀ value ∈ values, property value)
      (start + count * size) := by
  induction count generalizing start with
  | zero =>
    rw [Nat.zero_mul]
    exact pure fun value member => absurd member List.not_mem_nil
  | succ count inductionHypothesis =>
    have rest := @inductionHypothesis (start + size)
    rw [Nat.add_assoc, Nat.add_comm size, ← Nat.succ_mul] at rest
    refine bind (each start) fun value holds => bind rest fun values all => pure ?_
    exact List.forall_mem_cons.mpr ⟨holds, all⟩

end YieldsAt

/-! ## Whole parsers -/

/-- A success of the parser gives a value with the property. -/
def Ensures (side : Readable) (start : Nat) (parser : ReaderM α) (property : α → Prop) : Prop :=
  ∀ session, side.kept session → ∀ value reader left,
    (parser.run.run ⟨side.storage, start⟩).run session = ((.ok value, reader), left) →
    property value ∧ side.kept left

namespace Ensures

variable {property : α → Prop}

theorem pure {value : α} (holds : property value) : Ensures side start (Pure.pure value) property := by
  intro session kept value reader left ran
  cases ran
  exact ⟨holds, kept⟩

theorem throw_bind (error : Error) (next : α → ReaderM β) {final : β → Prop} :
    Ensures side start ((MonadExcept.throw error : ReaderM α) >>= next) final := by
  intro session kept value reader left ran
  cases ran

theorem bind {parser : ReaderM α} {next : α → ReaderM β} {final : β → Prop} {stop : Nat}
    (first : YieldsAt side start parser property stop)
    (rest : ∀ value, property value → Ensures side stop (next value) final) :
    Ensures side start (parser >>= next) final := by
  intro session kept value reader left ran
  obtain ⟨early, between, after, ran, last⟩ := ReaderM.ok_of_bind ran
  obtain ⟨holds, rfl, kept⟩ := first session kept early between after ran
  exact rest early holds after kept value reader left last

theorem imp {parser : ReaderM α} {stronger : α → Prop} (ensures : Ensures side start parser stronger)
    (less : ∀ value, stronger value → property value) : Ensures side start parser property := by
  intro session kept value reader left ran
  obtain ⟨holds, kept⟩ := ensures session kept value reader left ran
  exact ⟨less value holds, kept⟩

/-- The value of the last parser comes from a run of it. -/
theorem last {parser : ReaderM α} {change : α → β} (ensures : Ensures side start parser property) :
    Ensures side start (parser >>= fun value => Pure.pure (change value)) fun result => ∃ session value reader left,
      side.kept session ∧ (parser.run.run ⟨side.storage, start⟩).run session = ((.ok value, reader), left) ∧
      property value ∧ result = change value := by
  intro session kept result reader left ran
  obtain ⟨value, middle, between, ran, rest⟩ := ReaderM.ok_of_bind ran
  cases rest
  obtain ⟨holds, keeps⟩ := ensures session kept value reader left ran
  exact ⟨⟨session, value, reader, left, kept, ran, holds, rfl⟩, keeps⟩

theorem run' {parser : ReaderM α} (ensures : Ensures side start parser property) {session : Session} {value : α}
    (kept : side.kept session) (gives : (parser.run' ⟨side.storage, start⟩).result session = .ok value) :
    property value ∧ side.kept ((parser.run' ⟨side.storage, start⟩).after session) := by
  obtain ⟨reader, left, ran⟩ := ReaderM.run'_eq_ok gives
  have after : (parser.run' ⟨side.storage, start⟩).after session = left := congrArg Prod.snd ran
  rw [after]
  exact ensures session kept value reader left ran

end Ensures

end SealedContent
