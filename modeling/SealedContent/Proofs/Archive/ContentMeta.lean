import SealedContent.Archive.ContentMeta
import SealedContent.Proofs.Storage.Parsing
import SealedContent.Proofs.Storage.Spanning

/-! # Where the parts of a content meta stand

A content meta is a header, an extended header, the content records and the meta records, one behind the other, and
the header states how long the others are (`ContentMeta.extent`). It is read if all of these bytes are there, whatever
they are, and each part is decoded from its own place: `ContentMeta.read_extent`.
-/

namespace SealedContent

open Workspace (Steps)

variable {nodes : List Storage} {node : Storage} {bytes : Bytes}

/-! ## Records -/

/-- The content record that stands at a position. -/
def ContentRecord.decode (bytes : Bytes) (position : Nat) : ContentRecord where
  digest := bytes.window position 0x20
  id := bytes.window (position + 0x20) 0x10
  size := bytes.fieldAt (position + 0x30) 6
  kind := .ofCode (bytes.fieldAt (position + 0x36) 1)
  idOffset := bytes.fieldAt (position + 0x37) 1

theorem ContentRecord.size_decode_lt (bytes : Bytes) (position : Nat) : (decode bytes position).size < 2 ^ 48 :=
  Nat.lt_of_lt_of_eq (Bytes.fieldAt_lt bytes _ 6) (by decide)

/-- The meta record that stands at a position. -/
def MetaRecord.decode (bytes : Bytes) (position : Nat) : MetaRecord where
  titleId := bytes.fieldAt position 8
  version := bytes.fieldAt (position + 0x08) 4
  kind := .ofCode (bytes.fieldAt (position + 0x0C) 1)
  attributes := bytes.fieldAt (position + 0x0D) 1

section
variable (graph : Coherent nodes) (member : node ∈ nodes) (holds : node.Holds bytes)
include graph member holds

theorem ContentRecord.read_spans (position : Nat) :
    Spans (Remembers nodes) node bytes position read 0x38 (decode bytes position) := by
  have fields : Spans (Remembers nodes) node bytes position read (0x20 + (0x10 + (6 + (1 + (1 + 0)))))
      (decode bytes position) :=
    .bind (.exactly graph member holds _ 0x20) fun _ => .bind (.exactly graph member holds _ 0x10) fun _ =>
      .bind (.number graph member holds _ 6) fun _ => .bind (.number graph member holds _ 1) fun _ =>
      .bind (.number graph member holds _ 1) fun _ => .pure _
  exact fields

theorem MetaRecord.read_spans (position : Nat) :
    Spans (Remembers nodes) node bytes position read 0x10 (decode bytes position) := by
  have fields : Spans (Remembers nodes) node bytes position read (8 + (4 + (1 + (1 + (2 + 0)))))
      (decode bytes position) :=
    .bind (.number graph member holds _ 8) fun _ => .bind (.number graph member holds _ 4) fun _ =>
      .bind (.number graph member holds _ 1) fun _ => .bind (.number graph member holds _ 1) fun _ =>
      .bind (.skip graph member holds _ 2) fun _ => .pure _
  exact fields

end

/-! ## The table -/

namespace ContentMeta

/-- The sizes that a header states. -/
structure Sizes where
  /-- The number of bytes of the extended header. -/
  extended : Nat
  contents : Nat
  references : Nat

namespace Sizes

/-- The sizes in the header at a position. -/
def decode (bytes : Bytes) (base : Nat) : Sizes where
  extended := bytes.fieldAt (base + 0x0E) 2
  contents := bytes.fieldAt (base + 0x10) 2
  references := bytes.fieldAt (base + 0x12) 2

/-- The number of bytes from the header to the last record. -/
def extent (sizes : Sizes) : Nat :=
  headerSize + sizes.extended + 0x38 * sizes.contents + 0x10 * sizes.references

end Sizes

/-- The content meta that stands at a position. -/
def decode (bytes : Bytes) (base : Nat) : ContentMeta :=
  let sizes := Sizes.decode bytes base
  let records := base + headerSize + sizes.extended
  { titleId := bytes.fieldAt base 8
    version := bytes.fieldAt (base + 0x08) 4
    kind := .ofCode (bytes.fieldAt (base + 0x0C) 1)
    attributes := bytes.fieldAt (base + 0x14) 1
    systemVersion := bytes.fieldAt (base + 0x18) 4
    extended := bytes.window (base + headerSize) sizes.extended
    contents := (List.range sizes.contents).map fun k => .decode bytes (records + 0x38 * k)
    references := (List.range sizes.references).map fun k =>
      .decode bytes (records + 0x38 * sizes.contents + 0x10 * k) }

section
variable (graph : Coherent nodes) (member : node ∈ nodes) (holds : node.Holds bytes)
include graph member holds

/-- The records are read from where the extended header ends. -/
theorem read_spans (base : Nat) : Spans (Remembers nodes) node bytes base read (Sizes.decode bytes base).extent
    (decode bytes base) := by
  -- the table of a node is no longer than a 64-bit number can say
  have short : bytes.length < UInt64.size := holds.size ▸ graph.size_lt node member
  let sizes := Sizes.decode bytes base
  have parts : Spans (Remembers nodes) node bytes base read
      (0 + (8 + (4 + (1 + (1 + (2 + (2 + (2 + (1 + (3 + (4 + (4 + (sizes.extended + (0 + (0x38 * sizes.contents +
        (0x10 * sizes.references + 0)))))))))))))))) (decode bytes base) := by
    refine .bind (.still .position) fun _ => .bind (.number graph member holds _ 8) fun _ =>
      .bind (.number graph member holds _ 4) fun _ => .bind (.number graph member holds _ 1) fun _ =>
      .bind (.skip graph member holds _ 1) fun _ => .bind (.number graph member holds _ 2) fun _ =>
      .bind (.number graph member holds _ 2) fun _ => .bind (.number graph member holds _ 2) fun _ =>
      .bind (.number graph member holds _ 1) fun _ => .bind (.skip graph member holds _ 3) fun _ =>
      .bind (.number graph member holds _ 4) fun _ => .bind (.skip graph member holds _ 4) fun header =>
      .bind (.exactly graph member holds _ sizes.extended) fun extended => ?_
    have small : base + 0x20 + sizes.extended < UInt64.size := by
      simp only [Bytes.Covers] at header extended
      omega
    exact .bind (.stay rfl small) fun _ => .bind (.repeated (ContentRecord.read_spans graph member holds) _) fun _ =>
      .bind (.repeated (MetaRecord.read_spans graph member holds) _) fun _ => .pure _
  convert parts using 1
  show 0x20 + sizes.extended + 0x38 * sizes.contents + 0x10 * sizes.references = _
  omega

end

variable {w : Workspace}

theorem getElem?_map_range {α : Type} {value : (k : Nat) → α} {count k : Nat} (before : k < count) :
    ((List.range count).map value)[k]? = some (value k) := by
  rw [List.getElem?_map, List.getElem?_range before]
  rfl

/-- From any position of a node that can be read as a whole, a content meta is read exactly if all bytes that its
    header speaks of follow. Then each part is what its place holds, and otherwise the end of the node is found. -/
theorem read_extent (reached : Steps {} w) (member : node ∈ w.nodes)
    (reads : node.readAll.result w.session = .ok bytes) (base : Nat) :
    let outcome := (read.run' ⟨node, base⟩).result w.session
    let extended := bytes.fieldAt (base + 0x0E) 2
    let contents := bytes.fieldAt (base + 0x10) 2
    let references := bytes.fieldAt (base + 0x12) 2
    ((∃ table, outcome = .ok table) ↔
      base + (0x20 + extended + 0x38 * contents + 0x10 * references) ≤ bytes.length) ∧
    ((∀ table, outcome ≠ .ok table) → outcome = .error .endOfReader) ∧
    ∀ table, outcome = .ok table →
      (table.titleId = bytes.fieldAt base 8 ∧ table.version = bytes.fieldAt (base + 0x08) 4 ∧
        table.kind = .ofCode (bytes.fieldAt (base + 0x0C) 1) ∧ table.attributes = bytes.fieldAt (base + 0x14) 1 ∧
        table.systemVersion = bytes.fieldAt (base + 0x18) 4) ∧
      (table.extended = bytes.window (base + 0x20) extended ∧ table.extended.length = extended) ∧
      (table.contents.length = contents ∧ (∀ record ∈ table.contents, record.size < 2 ^ 48) ∧
        ∀ k < contents, table.contents[k]? = some (.decode bytes (base + 0x20 + extended + 0x38 * k))) ∧
      table.references.length = references ∧ ∀ k < references, table.references[k]? =
        some (.decode bytes (base + 0x20 + extended + 0x38 * contents + 0x10 * k)) := by
  intro outcome extended contents references
  have sound := Workspace.sound_of_steps reached
  have holds := Storage.Holds.of_readAll reached member reads
  obtain ⟨whole, cut⟩ := (read_spans sound.graph member holds base).run'
  have positive : (Sizes.decode bytes base).extent ≠ 0 := by
    show 0x20 + _ + _ + _ ≠ 0
    omega
  have covers : bytes.Covers base (Sizes.decode bytes base).extent ↔
      base + (0x20 + extended + 0x38 * contents + 0x10 * references) ≤ bytes.length :=
    or_iff_right positive
  rw [covers] at whole cut
  by_cases inside : base + (0x20 + extended + 0x38 * contents + 0x10 * references) ≤ bytes.length
  · have gives : outcome = .ok (decode bytes base) := (whole inside w.session sound.remembers).1
    rw [gives]
    refine ⟨iff_of_true ⟨_, rfl⟩ inside, fun none => absurd rfl (none _), ?_⟩
    rintro _ ⟨⟩
    refine ⟨⟨rfl, rfl, rfl, rfl, rfl⟩, ⟨rfl, Bytes.length_window ?_⟩,
      ⟨?_, fun record among => ?_, fun k before => ?_⟩, ?_, fun k before => ?_⟩
    · show base + 0x20 + extended ≤ bytes.length
      omega
    · exact (List.length_map _).trans List.length_range
    · obtain ⟨k, -, rfl⟩ := List.mem_map.mp among
      exact ContentRecord.size_decode_lt bytes _
    · exact getElem?_map_range before
    · exact (List.length_map _).trans List.length_range
    · exact getElem?_map_range before
  · have gives : outcome = .error .endOfReader := (cut inside w.session sound.remembers).1
    rw [gives]
    exact ⟨iff_of_false nofun inside, fun _ => rfl, nofun⟩

/-- A patch with one content, which refers to one application. -/
def samplePatch : Bytes :=
  LittleEndian.encode 8 0x0100000000001000 ++ LittleEndian.encode 4 0x10000 ++ [0x81, 0] ++
    LittleEndian.encode 2 2 ++ LittleEndian.encode 2 1 ++ LittleEndian.encode 2 1 ++ Bytes.zeros 4 ++
    LittleEndian.encode 4 0x0C000000 ++ Bytes.zeros 4 ++ [7, 8] ++
    (List.replicate 0x20 1 ++ List.replicate 0x10 0xA1 ++ LittleEndian.encode 6 0xF12345678901 ++ [1, 0]) ++
    (LittleEndian.encode 8 0x0100000000000800 ++ Bytes.zeros 4 ++ [0x80, 0] ++ Bytes.zeros 2)

/-- The patch is read from where it stands. One byte further on the header speaks of more bytes than there are. -/
theorem read_extent_samplePatch :
    let content := Storage.ofBytes ([9, 9, 9] ++ samplePatch)
    let w := Workspace.add {} content
    Steps {} w ∧ content.readAll.result w.session = .ok ([9, 9, 9] ++ samplePatch) ∧
    (∃ table, (read.run' ⟨content, 3⟩).result w.session = .ok table ∧ table.extended = [7, 8] ∧
      (table.contents.length = 1 ∧ ∃ record, table.contents[0]? = some record ∧ record.size = 0xF12345678901 ∧
        record.kind = .program) ∧
      table.references.length = 1 ∧ ∃ record, table.references[0]? = some record ∧ record.kind = .application) ∧
    (read.run' ⟨content, 4⟩).result w.session = .error .endOfReader := by
  intro content w
  have reached : Steps {} w := .step .refl (.ofBytes (by decide +kernel))
  have reads : content.readAll.result w.session = .ok ([9, 9, 9] ++ samplePatch) := readAll_ofBytes _ _
  obtain ⟨here, -, parts⟩ := read_extent reached (.head _) reads 3
  obtain ⟨further, refused, -⟩ := read_extent reached (.head _) reads 4
  refine ⟨reached, reads, ?_, refused fun table gives => ?_⟩
  · obtain ⟨table, gives⟩ := here.mpr (by decide +kernel)
    obtain ⟨-, ⟨extended, -⟩, ⟨contents, -, content⟩, references, reference⟩ := parts table gives
    refine ⟨table, gives, extended.trans (by decide +kernel), ⟨contents.trans (by decide +kernel), _,
      content 0 (by decide +kernel), by decide +kernel⟩, references.trans (by decide +kernel), _,
      reference 0 (by decide +kernel), by decide +kernel⟩
  · exact absurd (further.mp ⟨table, gives⟩) (by decide +kernel)

end ContentMeta
end SealedContent
