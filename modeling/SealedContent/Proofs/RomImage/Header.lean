import SealedContent.Archive.RomImage.Basic
import SealedContent.Proofs.RomImage.Layout
import SealedContent.Proofs.Storage.Taking

/-! # Reading a written image

A header takes the numbers that stand at the start of an image, and those of a written image say where its parts
stand: `header_image`, `window_directoryTable`, `window_fileTable`, `window_dataBytes`.
-/

namespace SealedContent

variable {node : Storage} {bytes : Bytes}

/-! ## Headers -/

/-- The header at the start of some bytes. -/
def RomHeader.ofBytes (bytes : Bytes) : RomHeader :=
  let region (offset : Nat) : Region := ⟨bytes.fieldAt offset 8, bytes.fieldAt (offset + 8) 8⟩
  ⟨region 0x8, region 0x18, region 0x28, region 0x38, bytes.fieldAt 0x48 8⟩

theorem RomHeader.read_answers {nodes : List Storage} (graph : Coherent nodes) (member : node ∈ nodes)
    (holds : node.Holds bytes) (long : RomHeader.size ≤ bytes.length) (stated : bytes.fieldAt 0 8 = RomHeader.size) :
    Answers (Remembers nodes) (RomHeader.read.run' ⟨node, 0⟩) (.ok (.ofBytes bytes)) := by
  have number : ∀ start, start + 8 ≤ RomHeader.size →
      Takes (Remembers nodes) node start (ReaderM.number 8) (bytes.fieldAt start 8) (start + 8) :=
    fun start inside => .number graph member holds (by omega)
  have region : ∀ start, start + 16 ≤ RomHeader.size → Takes (Remembers nodes) node start RomHeader.region
      ⟨bytes.fieldAt start 8, bytes.fieldAt (start + 8) 8⟩ (start + 16) :=
    fun start inside => .bind (number start (by omega)) (.bind (number _ (by omega)) (.pure _))
  have whole : Takes (Remembers nodes) node 0 RomHeader.read (.ofBytes bytes) RomHeader.size := by
    refine .bind (number 0 (by decide)) ?_
    rw [stated, if_neg (by simp)]
    exact .bind (region _ (by decide)) <| .bind (region _ (by decide)) <| .bind (region _ (by decide)) <|
      .bind (region _ (by decide)) <| .bind (number _ (by decide)) (.pure _)
  exact whole.run'

namespace RomImage

variable {files : List (String × Bytes)}

theorem length_headerBytes (directoriesSize filesSize dataOffset : Nat) :
    (headerBytes directoriesSize filesSize dataOffset).length = RomHeader.size := by
  simp [headerBytes, LittleEndian.length_encode, RomHeader.size]

theorem image_split (files : List (String × Bytes)) : ∃ gap : Bytes,
    image files = headerBytes (directoryTable files).length (fileTable files).length (dataStart files) ++
      directoryTable files ++ fileTable files ++ gap ++ dataBytes files ∧
    dataStart files = RomHeader.size + (directoryTable files).length + (fileTable files).length + gap.length := by
  refine ⟨_, image_eq files, ?_⟩
  simp only [dataStart, Bytes.length_zeros]
  omega

theorem length_image : (image files).length = dataStart files + (dataBytes files).length := by
  obtain ⟨gap, split, start⟩ := image_split files
  rw [split, start]
  simp only [List.length_append, length_headerBytes]

theorem window_directoryTable :
    (image files).window RomHeader.size (directoryTable files).length = directoryTable files := by
  obtain ⟨gap, split, -⟩ := image_split files
  have header := length_headerBytes (directoryTable files).length (fileTable files).length (dataStart files)
  rw [split, List.append_assoc, List.append_assoc, List.append_assoc, Bytes.window_append_of_le header.le, header,
    Nat.sub_self, Bytes.window_append_first _ rfl]

theorem window_fileTable :
    (image files).window (RomHeader.size + (directoryTable files).length) (fileTable files).length =
      fileTable files := by
  obtain ⟨gap, split, -⟩ := image_split files
  have front : (headerBytes (directoryTable files).length (fileTable files).length (dataStart files) ++
      directoryTable files).length = RomHeader.size + (directoryTable files).length := by
    rw [List.length_append, length_headerBytes]
  rw [split, List.append_assoc, List.append_assoc, Bytes.window_append_of_le front.le, front, Nat.sub_self,
    Bytes.window_append_first _ rfl]

theorem window_dataBytes : (image files).window (dataStart files) (dataBytes files).length = dataBytes files := by
  obtain ⟨gap, split, start⟩ := image_split files
  have front : (headerBytes (directoryTable files).length (fileTable files).length (dataStart files) ++
      directoryTable files ++ fileTable files ++ gap).length = dataStart files := by
    rw [start]
    simp only [List.length_append, length_headerBytes]
  rw [split, Bytes.window_append_of_le front.le, front, Nat.sub_self, Bytes.window_all]

/-- The header of an image that is no longer than a storage can be. -/
theorem header_image (short : (image files).length < 256 ^ 8) : (image files).fieldAt 0 8 = RomHeader.size ∧
    RomHeader.ofBytes (image files) = ⟨⟨RomHeader.size, 0⟩, ⟨RomHeader.size, (directoryTable files).length⟩,
      ⟨RomHeader.size + (directoryTable files).length, 0⟩,
      ⟨RomHeader.size + (directoryTable files).length, (fileTable files).length⟩, dataStart files⟩ := by
  obtain ⟨gap, split, start⟩ := image_split files
  let numbers := [RomHeader.size, RomHeader.size, 0, RomHeader.size, (directoryTable files).length,
    RomHeader.size + (directoryTable files).length, 0, RomHeader.size + (directoryTable files).length,
    (fileTable files).length, dataStart files]
  rw [length_image] at short
  have small : ∀ n ∈ numbers, n < 256 ^ 8 := by
    simp only [numbers, List.forall_mem_cons]
    refine ⟨?_, ?_, ?_, ?_, ?_, ?_, ?_, ?_, ?_, ?_, nofun⟩ <;> omega
  have wide : ∀ piece ∈ numbers.map (LittleEndian.encode 8), piece.length = 8 := by
    simp [LittleEndian.length_encode]
  have number : ∀ (i : Nat) {n : Nat}, numbers[i]? = some n → (image files).fieldAt (i * 8) 8 = n := by
    intro i n found
    obtain ⟨inside, rfl⟩ := List.getElem?_eq_some_iff.mp found
    have piece := Bytes.window_flatten wide i (by rwa [List.length_map])
    rw [List.getElem_map, ← List.flatMap_def] at piece
    have front : i * 8 + 8 ≤ (headerBytes (directoryTable files).length (fileTable files).length
        (dataStart files)).length := by
      rw [length_headerBytes, RomHeader.size]
      simp only [numbers, List.length_cons, List.length_nil] at inside
      omega
    rw [split, List.append_assoc, List.append_assoc, List.append_assoc, Bytes.fieldAt_append_left front, Bytes.fieldAt]
    refine (congrArg LittleEndian.decode piece).trans ?_
    rw [LittleEndian.decode_encode, Nat.mod_eq_of_lt (small _ (List.getElem_mem inside))]
  refine ⟨number 0 rfl, ?_⟩
  simp only [RomHeader.ofBytes, RomHeader.mk.injEq, Region.mk.injEq]
  exact ⟨⟨number 1 rfl, number 2 rfl⟩, ⟨number 3 rfl, number 4 rfl⟩, ⟨number 5 rfl, number 6 rfl⟩,
    ⟨number 7 rfl, number 8 rfl⟩, number 9 rfl⟩

end RomImage

end SealedContent
