import SealedContent.Proofs.Storage.Taking

/-! # Parsers of a known extent

`Spans` says all that a parser does that reads a number of bytes from its place on: where the node has all of them it
gives a value and stands behind them, and where one is missing it fails at the end of the node. It is closed under
composition, so that a format whose extents follow from its own fields is read exactly if it is there as a whole.
-/

namespace SealedContent

variable {α β : Type} {kept : Session → Prop} {nodes : List Storage} {node : Storage} {bytes : Bytes}
  {start middle size more : Nat}

/-! ## Failures -/

/-- From every session with the property, a parser that starts at a position fails with this error and keeps the
    property. -/
def FailsAt (kept : Session → Prop) (node : Storage) (start : Nat) (parser : ReaderM α) (error : Error) : Prop :=
  ∀ session, kept session → ∃ reader left, kept left ∧
    (parser.run.run ⟨node, start⟩).run session = ((.error error, reader), left)

namespace FailsAt

theorem throw (error : Error) : FailsAt kept node start (MonadExcept.throw error : ReaderM α) error :=
  fun session holds => ⟨_, session, holds, rfl⟩

/-- What follows a failure is not reached. -/
theorem bind {parser : ReaderM α} {error : Error} (fails : FailsAt kept node start parser error)
    (next : α → ReaderM β) : FailsAt kept node start (parser >>= next) error := by
  intro session holds
  obtain ⟨reader, left, holds, ran⟩ := fails session holds
  refine ⟨reader, left, holds, ?_⟩
  simp only [ExceptT.run, StateT.run] at *
  simp only [Bind.bind, ExceptT.bind, ExceptT.mk, StateT.bind, ExceptT.bindCont]
  rw [ran]
  rfl

theorem behind {parser : ReaderM α} {value : α} {next : α → ReaderM β} {error : Error}
    (first : Takes kept node start parser value middle) (rest : FailsAt kept node middle (next value) error) :
    FailsAt kept node start (parser >>= next) error := by
  intro session holds
  obtain ⟨between, holds, ran⟩ := first session holds
  obtain ⟨reader, left, holds, continued⟩ := rest between holds
  exact ⟨reader, left, holds, (ReaderM.run_bind_ok ran).trans continued⟩

theorem run' {parser : ReaderM α} {error : Error} (fails : FailsAt kept node start parser error) :
    Answers kept (parser.run' ⟨node, start⟩) (.error error) := by
  intro session holds
  obtain ⟨reader, left, keeps, ran⟩ := fails session holds
  have whole : (parser.run' ⟨node, start⟩).run.run session = (.error error, left) := by
    show ((((parser.run.run _).run session).1.1, ((parser.run.run _).run session).2) : _ × Session) = _
    rw [ran]
  exact ⟨congrArg Prod.fst whole, by rw [SessionM.after, whole]; exact keeps⟩

end FailsAt

/-! ## Extents -/

/-- All bytes of a range are there. No byte of an empty range can be missing. -/
def Bytes.Covers (bytes : Bytes) (start size : Nat) : Prop := size = 0 ∨ start + size ≤ bytes.length

theorem Bytes.covers_add :
    bytes.Covers start (size + more) ↔ bytes.Covers start size ∧ bytes.Covers (start + size) more := by
  simp only [Covers]
  omega

/-- A parser that reads `size` bytes and gives this value, or finds the end of the bytes before. -/
structure Spans (kept : Session → Prop) (node : Storage) (bytes : Bytes) (start : Nat) (parser : ReaderM α)
    (size : Nat) (value : α) : Prop where
  takes : bytes.Covers start size → Takes kept node start parser value (start + size)
  fails : ¬bytes.Covers start size → FailsAt kept node start parser .endOfReader

namespace Spans

/-- What takes no bytes. -/
theorem still {parser : ReaderM α} {value : α} (takes : Takes kept node start parser value start) :
    Spans kept node bytes start parser 0 value :=
  ⟨fun _ => takes, fun missing => absurd (.inl rfl) missing⟩

theorem pure (value : α) : Spans kept node bytes start (Pure.pure value) 0 value := still (.pure value)

/-- A seek to where the reader stands anyway. -/
theorem stay {offset : Nat} (same : offset = start) (small : start < UInt64.size) :
    Spans kept node bytes start (ReaderM.seekTo offset) 0 () := by
  subst same
  exact still (.seekTo small)

/-- The second parser matters only where the first one has found all of its bytes. -/
theorem bind {parser : ReaderM α} {value : α} {next : α → ReaderM β} {result : β}
    (first : Spans kept node bytes start parser size value)
    (rest : bytes.Covers start size → Spans kept node bytes (start + size) (next value) more result) :
    Spans kept node bytes start (parser >>= next) (size + more) result where
  takes covered := by
    obtain ⟨here, there⟩ := Bytes.covers_add.mp covered
    rw [← Nat.add_assoc]
    exact .bind (first.takes here) ((rest here).takes there)
  fails missing := by
    by_cases here : bytes.Covers start size
    · exact .behind (first.takes here) ((rest here).fails fun there => missing (Bytes.covers_add.mpr ⟨here, there⟩))
    · exact (first.fails here).bind next

/-- A value that is read and changed. -/
theorem map {parser : ReaderM α} {value : α} (spans : Spans kept node bytes start parser size value) (change : α → β) :
    Spans kept node bytes start (parser >>= fun read => Pure.pure (change read)) size (change value) := by
  have both : Spans kept node bytes start (parser >>= fun read => Pure.pure (change read)) (size + 0) (change value) :=
    spans.bind fun _ => pure (change value)
  exact both

/-- Items of one size one after the other. -/
theorem repeated {item : ReaderM α} {value : (position : Nat) → α}
    (each : ∀ position, Spans kept node bytes position item size (value position)) (count : Nat) :
    Spans kept node bytes start (ReaderM.repeated count item) (size * count)
      ((List.range count).map fun k => value (start + size * k)) := by
  induction count generalizing start with
  | zero => exact pure []
  | succ count inductionHypothesis =>
    have shifted : (List.range (count + 1)).map (fun k => value (start + size * k)) =
        value start :: (List.range count).map fun k => value (start + size + size * k) := by
      rw [List.range_succ_eq_map, List.map_cons, List.map_map]
      refine congrArg _ (List.map_congr_left fun k _ => ?_)
      show value (start + size * (k + 1)) = _
      rw [Nat.mul_succ, Nat.add_comm (size * k), Nat.add_assoc]
    rw [shifted, Nat.mul_succ, Nat.add_comm (size * count)]
    exact bind (each start) fun _ => map inductionHypothesis _

section
variable (graph : Coherent nodes) (member : node ∈ nodes) (holds : node.Holds bytes)
include graph member holds

theorem exactly (start count : Nat) :
    Spans (Remembers nodes) node bytes start (ReaderM.exactly count) count (bytes.window start count) := by
  have available := Takes.available graph member holds start count
  have length := Bytes.length_window_eq bytes start count
  refine ⟨fun covered => ?_, fun missing => ?_⟩
  · have whole : min count (bytes.length - start) = count := by
      simp only [Bytes.Covers] at covered
      omega
    rw [whole] at available
    refine .bind available ?_
    rw [if_neg (by omega)]
    exact .pure _
  · refine .behind available ?_
    rw [if_pos (by simp only [Bytes.Covers] at missing; omega)]
    exact (FailsAt.throw _).bind _

theorem number (start width : Nat) :
    Spans (Remembers nodes) node bytes start (ReaderM.number width) width (bytes.fieldAt start width) :=
  (exactly graph member holds start width).map LittleEndian.decode

theorem skip (start count : Nat) : Spans (Remembers nodes) node bytes start (ReaderM.skip count) count () :=
  (exactly graph member holds start count).map fun _ => ()

end

/-- The outcome is settled by whether the bytes are there. -/
theorem run' {parser : ReaderM α} {value : α} (spans : Spans kept node bytes start parser size value) :
    (bytes.Covers start size → Answers kept (parser.run' ⟨node, start⟩) (.ok value)) ∧
    (¬bytes.Covers start size → Answers kept (parser.run' ⟨node, start⟩) (.error .endOfReader)) :=
  ⟨fun covered => (spans.takes covered).run', fun missing => (spans.fails missing).run'⟩

end Spans

end SealedContent
