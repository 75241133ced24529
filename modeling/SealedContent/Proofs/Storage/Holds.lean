import SealedContent.Proofs.Aes.RoundTrips
import SealedContent.Proofs.Storage.Reads

/-! # Storages that can be read as a whole

`Storage.Holds node bytes` says that every position of a node can be read, and which bytes stand there.
The bytes of windows, caches, ciphers and concatenations are those of the nodes below, cut, kept,
transformed and joined. In a workspace every read of such a node succeeds: `Storage.Holds.read`.
-/

namespace SealedContent

open ByteMap (window?_getElem? window?_eq_some_iff)

/-- All bytes of a node can be read, whatever the range: no sum has more than 64 bits. -/
structure Storage.Holds (node : Storage) (bytes : Bytes) : Prop where
  size : node.size = bytes.length
  byte : ∀ position, node.byte? position = bytes[position]?
  fits : node.Fits

namespace Storage.Holds

variable {nodes : List Storage} {node inner : Storage} {bytes : Bytes}

theorem map_eq (holds : node.Holds bytes) : node.byte? = fun position => bytes[position]? :=
  funext holds.byte

/-! ## Reads -/

theorem found (holds : node.Holds bytes) {offset length : Nat} (inside : offset + length ≤ bytes.length) :
    node.byte?.window? offset length = some (bytes.window offset length) := by
  refine ByteMap.window?_eq_some_iff.mpr ⟨Bytes.length_window inside, fun i before => ?_⟩
  rw [holds.byte, Bytes.getElem?_window before]

theorem outcome (graph : Coherent nodes) (member : node ∈ nodes) (holds : node.Holds bytes) {offset length : Nat}
    (inside : offset + length ≤ bytes.length) : node.outcome offset length = .ok (bytes.window offset length) :=
  (outcome_eq_ok_iff graph member holds.fits (by rwa [holds.size])).mpr (holds.found inside)

/-- A read of everything succeeds exactly for such nodes. -/
theorem iff_outcome (graph : Coherent nodes) (member : node ∈ nodes) (fits : node.Fits) :
    node.Holds bytes ↔ node.outcome 0 node.size = .ok bytes := by
  constructor
  · intro holds
    rw [holds.size, holds.outcome graph member (by omega)]
    simp [Bytes.window]
  · intro gives
    obtain ⟨long, all⟩ := window?_eq_some_iff.mp (outcome_bytes graph member gives)
    refine ⟨long.symm, fun position => ?_, fits⟩
    by_cases inside : position < node.size
    · have found := all position inside
      rwa [Nat.zero_add] at found
    · have serves : Serves False node.outcome node.byte? node.size := node.serves graph member (.inr fits)
      rw [serves.outside position (by omega), List.getElem?_eq_none (by omega)]

theorem answers (graph : Coherent nodes) (member : node ∈ nodes) (holds : node.Holds bytes) {offset length : Nat}
    (inside : offset + length ≤ bytes.length) :
    Answers (Remembers nodes) (node.read offset length) (.ok (bytes.window offset length)) := by
  rw [← holds.outcome graph member inside]
  exact node.read_answers graph member offset length

/-- In a workspace a range inside the node is read as the bytes there. -/
theorem read {w : Workspace} (sound : w.Sound) (member : node ∈ w.nodes) (holds : node.Holds bytes)
    {offset length : Nat} (inside : offset + length ≤ bytes.length) :
    (node.read offset length).result w.session = .ok (bytes.window offset length) := by
  rw [(node.read_answers sound.graph member offset length _ sound.remembers).1]
  exact holds.outcome sound.graph member inside

/-- A node of a workspace that is read as a whole. -/
theorem of_readAll {w : Workspace} (reached : Workspace.Steps {} w) (member : node ∈ w.nodes)
    (reads : node.readAll.result w.session = .ok bytes) : node.Holds bytes := by
  have sound := Workspace.sound_of_steps reached
  rw [Storage.readAll, (node.read_answers sound.graph member 0 node.size _ sound.remembers).1] at reads
  exact (iff_outcome sound.graph member (Workspace.fits_of_steps reached node member)).mpr reads

theorem readAll {w : Workspace} (sound : w.Sound) (member : node ∈ w.nodes) (holds : node.Holds bytes) :
    node.readAll.result w.session = .ok bytes := by
  rw [Storage.readAll, (node.read_answers sound.graph member 0 node.size _ sound.remembers).1]
  exact (iff_outcome sound.graph member holds.fits).mp holds

/-- Any other range is refused. -/
theorem read_outside {w : Workspace} (sound : w.Sound) (member : node ∈ w.nodes) (holds : node.Holds bytes)
    {offset length : Nat} (outside : bytes.length < offset + length) :
    (node.read offset length).result w.session = .error (.outOfRange offset length bytes.length) := by
  rw [(node.read_answers sound.graph member offset length _ sound.remembers).1, ← holds.size]
  exact Storage.outcome_outside (by rw [holds.size]; exact outside)

/-- Nodes that hold the same bytes are read alike. -/
theorem read_eq {w other : Workspace} {twin : Storage} (sound : w.Sound) (member : node ∈ w.nodes)
    (holds : node.Holds bytes) (twinSound : other.Sound) (twinMember : twin ∈ other.nodes)
    (twinHolds : twin.Holds bytes) (offset length : Nat) :
    (node.read offset length).result w.session = (twin.read offset length).result other.session := by
  by_cases inside : offset + length ≤ bytes.length
  · rw [holds.read sound member inside, twinHolds.read twinSound twinMember inside]
  · rw [holds.read_outside sound member (by omega), twinHolds.read_outside twinSound twinMember (by omega)]

/-! ## Nodes -/

theorem ofBytes (bytes : Bytes) : (Storage.ofBytes bytes).Holds bytes :=
  ⟨List.size_toArray, fun _ => List.getElem?_toArray, trivial⟩

theorem window {parent : Storage} {start size : Nat} (holds : parent.Holds bytes)
    (made : parent.window start size = .ok node) : node.Holds (bytes.window start size) := by
  obtain ⟨sized, inside⟩ := size_window made
  rw [holds.size] at inside
  refine ⟨by rw [sized, Bytes.length_window inside], fun position => ?_, (Storage.fits_window made).mpr holds.fits⟩
  rw [byte?_window made]
  split
  · next before => rw [holds.byte, Bytes.getElem?_window before]
  · next beyond => rw [List.getElem?_eq_none (by rw [Bytes.length_window inside]; omega)]

/-- What is opened at a range of a node are the bytes there, whatever is done from a workspace on. -/
theorem readAll_window {w later : Workspace} (sound : w.Sound) (member : node ∈ w.nodes) (holds : node.Holds bytes)
    {offset length : Nat} (inside : offset + length ≤ bytes.length) (steps : Workspace.Steps w later) :
    (do (← node.window offset length).readAll : SessionM Bytes).result later.session =
      .ok (bytes.window offset length) := by
  obtain ⟨opened, made⟩ : ∃ opened, node.window offset length = .ok opened := window_ok (by rwa [holds.size])
  rw [made]
  have kept := steps.nodes_subset node member
  exact (holds.window made).readAll (w := later.add opened) ((steps.sound sound).slice kept made) (.head _)

/-- A range that was read is a window with these bytes. -/
theorem of_read {w : Workspace} (sound : w.Sound) (member : node ∈ w.nodes) (fits : node.Fits) {start size : Nat}
    (gives : (node.read start size).result w.session = .ok bytes) :
    ∃ cut, node.window start size = .ok cut ∧ cut.Holds bytes := by
  rw [(node.read_answers sound.graph member start size _ sound.remembers).1] at gives
  have inside : start + size ≤ node.size := by
    by_contra outside
    rw [Storage.outcome_outside (by omega)] at gives
    cases gives
  obtain ⟨cut, windowed⟩ := window_ok inside
  have graph := (sound.slice member windowed).graph
  have cutFits := (Storage.fits_window windowed).mpr fits
  have sized := (size_window windowed).1
  refine ⟨cut, windowed, (iff_outcome graph (.head _) cutFits).mpr ?_⟩
  rw [sized, outcome_eq_ok_iff graph (.head _) cutFits (by omega), window?_window windowed (by omega)]
  exact outcome_bytes sound.graph member gives

theorem cache (holds : inner.Holds bytes) (table blockSize capacity : Nat) :
    (Storage.cache table inner blockSize capacity).Holds bytes := by
  refine ⟨holds.size, fun position => ?_, holds.fits⟩
  show (if _ then inner.byte? position else none) = _
  rw [holds.byte, holds.map_eq, holds.size]
  by_cases inside : position < bytes.length
  · have start : position / blockSize * blockSize ≤ position := Nat.div_mul_le_self _ _
    -- the block around the position ends at the end of the bytes at the latest
    rw [if_pos]
    rw [window?_getElem? (by rw [blockLength]; omega)]
    rfl
  · rw [List.getElem?_eq_none (by omega), ite_self]

theorem ctr (holds : inner.Holds bytes) (key counter : Aes.Block) :
    (Storage.decrypt inner (.ctr key counter)).Holds (Aes.ctr key counter bytes) := by
  refine ⟨by rw [Aes.ctr, Aes.length_ctrAt]; exact holds.size, fun position => ?_, trivial, holds.fits⟩
  show (inner.byte? position).map _ = _
  rw [holds.byte, Aes.ctr, Aes.getElem?_ctrAt, Nat.zero_add]

theorem xts (holds : inner.Holds bytes) {key : Aes.XtsKey} {first size : Nat} {plain : Bytes}
    (decrypts : Aes.xtsDecrypt key first size bytes = .ok plain)
    (fits : (StorageCipher.xts key size first).Fits bytes.length) :
    (Storage.decrypt inner (.xts key size first)).Holds plain := by
  have long := Aes.length_xtsSectors decrypts
  obtain ⟨positive, aligned, whole, -⟩ := Aes.xtsSectors_eq_ok_iff.mp decrypts
  refine ⟨by rw [long]; exact holds.size, fun position => ?_, by rwa [← holds.size] at fits, holds.fits⟩
  show ByteMap.decrypted _ inner.byte? position = _
  rw [holds.map_eq]
  simp only [ByteMap.decrypted, if_pos (Nat.mod_eq_zero_of_dvd aligned), ByteMap.units, ByteMap.blockwise]
  have division := Nat.div_add_mod position size
  have remainder := Nat.mod_lt position positive
  rw [Nat.mul_comm] at division
  by_cases inside : position < bytes.length
  · -- the sector around the position is whole
    have sector : (position / size + 1) * size ≤ bytes.length := by
      obtain ⟨count, sized⟩ := whole
      rw [sized, Nat.mul_comm size] at inside ⊢
      exact Nat.mul_le_mul_right size (Nat.div_lt_of_lt_mul (by rwa [Nat.mul_comm]))
    have here := Aes.window_xtsSectors decrypts sector
    rw [window?_getElem? (by rw [← Nat.succ_mul]; exact sector)]
    have piece : Aes.decryptSector key (first + position / size) (bytes.window (position / size * size) size) =
        plain.window (position / size * size) size := here.symm
    rw [Option.map_some, Option.bind_some, piece, Bytes.getElem?_window remainder, division]
  · rw [List.getElem?_eq_none (by omega), ByteMap.window?_eq_none remainder]
    · rfl
    · exact List.getElem?_eq_none (by omega)

theorem concat {first second : Storage} {before after : Bytes} (front : first.Holds before)
    (back : second.Holds after) : (Storage.concat [first, second]).Holds (before ++ after) := by
  refine ⟨?_, fun position => ?_, front.fits, back.fits, trivial⟩
  · simp only [Storage.size, Storage.sizes, front.size, back.size, List.length_append, Nat.add_zero]
  · show segmentsByte? [first, second] position = _
    by_cases early : position < first.size
    · rw [segmentsByte?_first early, front.byte, List.getElem?_append_left (by rw [← front.size]; exact early)]
    · obtain ⟨further, rfl⟩ : ∃ further, position = first.size + further := ⟨position - first.size, by omega⟩
      rw [segmentsByte?_rest, List.getElem?_append_right (by rw [← front.size]; omega), ← front.size,
        Nat.add_sub_cancel_left]
      by_cases late : further < second.size
      · rw [segmentsByte?_first late, back.byte]
      · rw [List.getElem?_eq_none (by rw [← back.size]; omega),
          show further = second.size + (further - second.size) by omega, segmentsByte?_rest]
        rfl

end Storage.Holds

end SealedContent
