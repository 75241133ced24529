import SealedContent.Proofs.Storage.Agreement
import SealedContent.Proofs.Storage.Holds
import SealedContent.Proofs.Windows

/-! # Parsers over a node

`Takes` says which value a parser takes from a position of a node that can be read: the fields that parsers read are
the windows there. `Consumes` says the same of a parser and some bytes, wherever these stand: a format that was
written field by field is read field by field.
-/

namespace SealedContent

variable {α β ι : Type} {kept : Session → Prop} {nodes : List Storage} {node : Storage} {bytes : Bytes}
  {start middle stop : Nat}

/-! ## Parsers at a position -/

/-- From every session with the property, a parser that starts at a position gives this value and keeps the
    property. It leaves the reader at `stop`. -/
def Takes (kept : Session → Prop) (node : Storage) (start : Nat) (parser : ReaderM α) (value : α) (stop : Nat) :
    Prop :=
  ∀ session, kept session → ∃ left, kept left ∧
    (parser.run.run ⟨node, start⟩).run session = ((.ok value, ⟨node, stop⟩), left)

theorem ReaderM.run_bind_ok {parser : ReaderM α} {next : α → ReaderM β} {reader middle : Reader} {value : α}
    {session between : Session} (ran : (parser.run.run reader).run session = ((.ok value, middle), between)) :
    ((parser >>= next).run.run reader).run session = ((next value).run.run middle).run between := by
  simp only [ExceptT.run, StateT.run] at *
  simp only [Bind.bind, ExceptT.bind, ExceptT.mk, StateT.bind, ExceptT.bindCont]
  rw [ran]

namespace Takes

theorem pure (value : α) : Takes kept node start (Pure.pure value) value start :=
  fun session holds => ⟨session, holds, rfl⟩

theorem lift (value : α) : Takes kept node start (liftM (Except.ok value : Except Error α)) value start :=
  fun session holds => ⟨session, holds, rfl⟩

theorem bind {parser : ReaderM α} {value : α} {next : α → ReaderM β} {result : β}
    (first : Takes kept node start parser value middle) (rest : Takes kept node middle (next value) result stop) :
    Takes kept node start (parser >>= next) result stop := by
  intro session holds
  obtain ⟨between, holds, ran⟩ := first session holds
  obtain ⟨left, holds, continued⟩ := rest between holds
  exact ⟨left, holds, (ReaderM.run_bind_ok ran).trans continued⟩

theorem fetch {action : SessionM α} {value : α} (answers : Answers kept action (.ok value))
    (change : Error → Error) :
    Takes kept node start (ExceptT.mk do
      let result ← StateT.lift action.run
      return result.mapError change) value start := by
  intro session holds
  obtain ⟨gives, left⟩ := answers session holds
  refine ⟨action.after session, left, ?_⟩
  show ((Except.mapError change (action.result session), _), _) = _
  rw [gives]
  rfl

theorem set (position : Nat) :
    Takes kept node start (MonadStateOf.set (Reader.mk node position) : ReaderM PUnit) ⟨⟩ position :=
  fun session holds => ⟨session, holds, rfl⟩

theorem get_bind {next : Reader → ReaderM β} {result : β}
    (rest : Takes kept node start (next ⟨node, start⟩) result stop) :
    Takes kept node start (get >>= next) result stop := rest

theorem position : Takes kept node start ReaderM.position start start := get_bind (pure _)

theorem seekTo {offset : Nat} (small : offset < UInt64.size) :
    Takes kept node start (ReaderM.seekTo offset) () offset := by
  have moved : Takes kept node start (ReaderM.seek (.start offset)) offset offset := by
    apply get_bind
    dsimp only
    rw [if_neg (by omega), Int.toNat_natCast, Nat.mod_eq_of_lt small]
    exact bind (set _) (pure _)
  exact bind moved (pure _)

theorem run' {parser : ReaderM α} {value : α} (takes : Takes kept node start parser value stop) :
    Answers kept (parser.run' ⟨node, start⟩) (.ok value) := by
  intro session holds
  obtain ⟨left, keeps, ran⟩ := takes session holds
  have whole : (parser.run' ⟨node, start⟩).run.run session = (.ok value, left) := by
    show ((((parser.run.run _).run session).1.1, ((parser.run.run _).run session).2) : _ × Session) = _
    rw [ran]
  exact ⟨congrArg Prod.fst whole, by rw [SessionM.after, whole]; exact keeps⟩

end Takes

/-! ## Reads of what is there -/

section
variable {side : Readable} (complete : side.Complete) {count : Nat}
include complete

namespace Takes

theorem read_found (inside : start + count ≤ side.storage.size)
    (found : side.storage.byte?.window? start count = some bytes) :
    Takes side.kept side.storage start (ReaderM.read count) bytes (start + count) := by
  apply get_bind
  dsimp only
  split
  · obtain rfl : count = 0 := by omega
    cases found
    exact pure _
  · rw [Nat.min_eq_left (by omega)]
    exact bind (fetch (complete inside found) _) (bind (set _) (pure _))

theorem exactly_found (inside : start + count ≤ side.storage.size)
    (found : side.storage.byte?.window? start count = some bytes) :
    Takes side.kept side.storage start (ReaderM.exactly count) bytes (start + count) := by
  refine bind (read_found complete inside found) ?_
  rw [if_neg (by rw [ByteMap.length_of_window? found]; omega)]
  exact pure _

/-- The pieces of a growing buffer are put together again. -/
theorem pieces_found (held count : Nat) {start : Nat} {bytes : Bytes} (inside : start + count ≤ side.storage.size)
    (found : side.storage.byte?.window? start count = some bytes) : ∃ parts, parts.flatten = bytes ∧
      Takes side.kept side.storage start ((ReaderM.pieces held count).mapM ReaderM.read) parts (start + count) := by
  fun_induction ReaderM.pieces held count generalizing start bytes with
  | case1 held =>
    cases found
    exact ⟨[], rfl, pure _⟩
  | case2 held count nonempty piece =>
    -- the case has no name for its hypothesis behind the local piece
    rename_i inductionHypothesis
    have within : piece ≤ count := Nat.min_le_right _ _
    have long := ByteMap.length_of_window? found
    have first : side.storage.byte?.window? start piece = some (bytes.take piece) :=
      ByteMap.window?_inside found (show 0 + piece ≤ count by omega)
    have later : side.storage.byte?.window? (start + piece) (count - piece) = some (bytes.drop piece) := by
      have rest := ByteMap.window?_drop found within
      rwa [List.length_drop, long] at rest
    obtain ⟨parts, same, rest⟩ := @inductionHypothesis (start + piece) _ (by omega) later
    rw [Nat.add_assoc, Nat.add_sub_cancel' within] at rest
    refine ⟨bytes.take piece :: parts, ?_, ?_⟩
    · rw [List.flatten_cons, same, List.take_append_drop]
    · rw [List.mapM_cons]
      exact bind (read_found complete (by omega) first) (bind rest (pure _))

theorem upTo_found (inside : start + count ≤ side.storage.size)
    (found : side.storage.byte?.window? start count = some bytes) :
    Takes side.kept side.storage start (ReaderM.upTo count) bytes (start + count) := by
  obtain ⟨parts, rfl, takes⟩ := pieces_found complete 0 count inside found
  apply get_bind
  dsimp only
  rw [Nat.min_eq_left (by omega)]
  exact bind takes (pure _)

theorem field_found (inside : start + count ≤ side.storage.size)
    (found : side.storage.byte?.window? start count = some bytes) :
    Takes side.kept side.storage start (ReaderM.field count) bytes (start + count) := by
  refine bind (upTo_found complete inside found) ?_
  rw [if_neg (by rw [ByteMap.length_of_window? found]; exact fun differs => differs rfl)]
  exact pure _

end Takes

end

/-! ## Reads of all bytes -/

namespace Takes

section
variable (graph : Coherent nodes) (member : node ∈ nodes) (holds : node.Holds bytes)
include graph member holds

/-- A read gives the bytes that are left, if fewer than were asked for. -/
theorem available (start count : Nat) :
    Takes (Remembers nodes) node start (ReaderM.read count) (bytes.window start count)
      (start + min count (bytes.length - start)) := by
  apply get_bind
  dsimp only
  rw [holds.size]
  by_cases beyond : bytes.length ≤ start
  · rw [if_pos beyond, Bytes.window, List.drop_eq_nil_of_le beyond, List.take_nil, Nat.sub_eq_zero_of_le beyond,
      Nat.min_zero]
    exact pure _
  · rw [if_neg beyond, ← Bytes.window_min]
    exact bind (fetch (holds.answers graph member (by omega)) _) (bind (set _) (pure _))

theorem exactly {count : Nat} (inside : start + count ≤ bytes.length) :
    Takes (Remembers nodes) node start (ReaderM.exactly count) (bytes.window start count) (start + count) :=
  exactly_found (Readable.complete_ofNode graph member holds.fits) (Nat.le_trans inside holds.size.ge)
    (holds.found inside)

theorem number {width : Nat} (inside : start + width ≤ bytes.length) :
    Takes (Remembers nodes) node start (ReaderM.number width) (bytes.fieldAt start width) (start + width) :=
  bind (exactly graph member holds inside) (pure _)

theorem skip {count : Nat} (inside : start + count ≤ bytes.length) :
    Takes (Remembers nodes) node start (ReaderM.skip count) () (start + count) :=
  bind (exactly graph member holds inside) (pure _)

theorem magic {text : String} (inside : start + text.length ≤ bytes.length)
    (stands : bytes.window start text.length = .ofAscii text) :
    Takes (Remembers nodes) node start (ReaderM.magic text) () (start + text.length) := by
  refine bind (exactly graph member holds inside) ?_
  rw [stands, if_neg fun differs => differs rfl]
  exact pure _

theorem upTo {length : Nat} (inside : start + length ≤ bytes.length) :
    Takes (Remembers nodes) node start (ReaderM.upTo length) (bytes.window start length) (start + length) :=
  upTo_found (Readable.complete_ofNode graph member holds.fits) (Nat.le_trans inside holds.size.ge) (holds.found inside)

/-- A reader behind the end has nothing left to read. -/
theorem toEnd : Takes (Remembers nodes) node start ReaderM.toEnd (bytes.drop start) (max start bytes.length) := by
  apply get_bind
  dsimp only
  rw [holds.size]
  by_cases inside : start ≤ bytes.length
  · have all : start + (bytes.length - start) ≤ bytes.length := by omega
    have takes := upTo graph member holds all
    rw [Bytes.window, ← List.length_drop, List.take_length, List.length_drop, Nat.add_sub_cancel' inside] at takes
    rwa [Nat.max_eq_right inside]
  · apply get_bind
    dsimp only
    rw [Nat.sub_eq_zero_of_le (by omega), Nat.zero_min, ReaderM.pieces, dif_pos rfl,
      List.drop_eq_nil_of_le (by omega), Nat.max_eq_left (by omega)]
    exact pure _

theorem field {length : Nat} (inside : start + length ≤ bytes.length) :
    Takes (Remembers nodes) node start (ReaderM.field length) (bytes.window start length) (start + length) :=
  field_found (Readable.complete_ofNode graph member holds.fits) (Nat.le_trans inside holds.size.ge)
    (holds.found inside)

end

end Takes

/-! ## Parsers of what was written -/

/-- Wherever a node holds these bytes, the parser takes them and gives this value. -/
def Consumes (nodes : List Storage) (parser : ReaderM α) (piece : Bytes) (value : α) : Prop :=
  ∀ node ∈ nodes, ∀ before after, node.Holds (before ++ piece ++ after) →
    Takes (Remembers nodes) node before.length parser value (before.length + piece.length)

namespace Consumes

theorem pure (value : α) : Consumes nodes (Pure.pure value) [] value := fun _ _ _ _ _ => .pure value

theorem lift (value : α) : Consumes nodes (liftM (Except.ok value : Except Error α)) [] value :=
  fun _ _ _ _ _ => .lift value

theorem bind {parser : ReaderM α} {value : α} {next : α → ReaderM β} {result : β} {piece more : Bytes}
    (first : Consumes nodes parser piece value) (rest : Consumes nodes (next value) more result) :
    Consumes nodes (parser >>= next) (piece ++ more) result := by
  intro node member before after holds
  -- the second piece is what follows the first, and the first what stands in front of the second
  have early := first node member before (more ++ after) (by simpa only [List.append_assoc] using holds)
  have late := rest node member (before ++ piece) after (by simpa only [List.append_assoc] using holds)
  rw [List.length_append] at late ⊢
  rw [← Nat.add_assoc]
  exact .bind early late

/-- A value that is read and changed. -/
theorem map {parser : ReaderM α} {value : α} {piece : Bytes} (consumes : Consumes nodes parser piece value)
    (change : α → β) : Consumes nodes (parser >>= fun read => Pure.pure (change read)) piece (change value) := by
  have both : Consumes nodes (parser >>= fun read => Pure.pure (change read)) (piece ++ []) (change value) :=
    bind consumes (pure _)
  rwa [List.append_nil] at both

theorem mapM {action : ι → ReaderM α} {piece : ι → Bytes} {value : ι → α} {items : List ι}
    (each : ∀ item ∈ items, Consumes nodes (action item) (piece item) (value item)) :
    Consumes nodes (items.mapM action) (items.flatMap piece) (items.map value) := by
  induction items with
  | nil => exact pure []
  | cons item rest inductionHypothesis =>
    rw [List.mapM_cons]
    exact bind (each item (.head _)) (map (inductionHypothesis fun other among => each other (.tail _ among)) _)

theorem repeated {parser : ReaderM α} {piece : ι → Bytes} {value : ι → α} {items : List ι}
    (each : ∀ item ∈ items, Consumes nodes parser (piece item) (value item)) :
    Consumes nodes (ReaderM.repeated items.length parser) (items.flatMap piece) (items.map value) := by
  induction items with
  | nil => exact pure []
  | cons item rest inductionHypothesis =>
    exact bind (each item (.head _)) (map (inductionHypothesis fun other among => each other (.tail _ among)) _)

section
variable (graph : Coherent nodes)
include graph

theorem exactly (piece : Bytes) : Consumes nodes (ReaderM.exactly piece.length) piece piece := by
  intro node member before after holds
  have takes := Takes.exactly graph member holds (Bytes.length_between before piece after)
  rwa [Bytes.window_between] at takes

theorem field (piece : Bytes) : Consumes nodes (ReaderM.field piece.length) piece piece := by
  intro node member before after holds
  have takes := Takes.field graph member holds (Bytes.length_between before piece after)
  rwa [Bytes.window_between] at takes

theorem number {width n : Nat} (small : n < 256 ^ width) :
    Consumes nodes (ReaderM.number width) (LittleEndian.encode width n) n := by
  have takes := map (exactly graph (LittleEndian.encode width n)) LittleEndian.decode
  rwa [LittleEndian.length_encode, LittleEndian.decode_encode, Nat.mod_eq_of_lt small] at takes

theorem skip (piece : Bytes) : Consumes nodes (ReaderM.skip piece.length) piece () :=
  map (exactly graph piece) fun _ => ()

theorem magic (text : String) : Consumes nodes (ReaderM.magic text) (.ofAscii text) () := by
  have long : (Bytes.ofAscii text).length = text.length := by
    rw [Bytes.ofAscii, List.length_map, String.length_toList]
  have takes := exactly graph (Bytes.ofAscii text)
  rw [long] at takes
  have whole : Consumes nodes (ReaderM.magic text) (Bytes.ofAscii text ++ []) () := by
    refine bind takes ?_
    rw [if_neg (fun differs => differs rfl)]
    exact pure _
  rwa [List.append_nil] at whole

end

end Consumes
end SealedContent
