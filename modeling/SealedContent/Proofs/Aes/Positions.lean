import Mathlib.Data.List.Basic
import SealedContent.Aes.Modes

/-! # Ciphers position by position

What the modes of operation do to one byte or one unit of a string, wherever the string starts:
`getElem?_ctrAt` for the byte under a keystream, `xtsDecrypt_flatten` and `ecbDecrypt_flatten` for the
sectors and blocks of a string.
-/

namespace SealedContent

/-! ## Strings of equal pieces -/

theorem length_flatten_pieces (size : Nat) {pieces : List Bytes}
    (whole : ∀ piece ∈ pieces, piece.length = size) : pieces.flatten.length = pieces.length * size := by
  induction pieces with
  | nil => simp
  | cons first rest inductionHypothesis =>
    rw [List.flatten_cons, List.length_append, whole first (by simp),
      inductionHypothesis fun piece member => whole piece (by simp [member]), List.length_cons, Nat.succ_mul]
    omega

theorem Bytes.chunks_flatten {size : Nat} (positive : 0 < size) {pieces : List Bytes}
    (whole : ∀ piece ∈ pieces, piece.length = size) : Bytes.chunks size pieces.flatten = pieces := by
  induction pieces with
  | nil => simp
  | cons first rest inductionHypothesis =>
    have firstWhole := whole first (by simp)
    have nonempty : ¬ (size = 0 ∨ (first :: rest).flatten = []) := by
      rintro (zero | empty)
      · omega
      · have none := congrArg List.length empty
        simp only [List.flatten_cons, List.length_append, List.length_nil] at none
        omega
    rw [Bytes.chunks, dif_neg nonempty, List.flatten_cons, ← firstWhole, List.take_left', List.drop_left',
      firstWhole, inductionHypothesis fun piece member => whole piece (by simp [member])]
    all_goals rfl

namespace Aes

/-! ## Keystreams -/

/-- The byte of a keystream at a position, when its first block is the encryption of `base`. -/
def keystreamByte (key base : Block) (position : Nat) : UInt8 :=
  (encryptBlock key (.ofNat (base.toNat + position / blockSize))).toBytes.getD (position % blockSize) 0

theorem getElem?_keystream (key : Block) {counter count position : Nat}
    (inside : position < count * blockSize) :
    (keystream key counter count)[position]? =
      some ((encryptBlock key (.ofNat (counter + position / blockSize))).toBytes.getD
        (position % blockSize) 0) := by
  simp only [blockSize] at *
  unfold keystream encryptBlock
  induction count with
  | zero => omega
  | succ count inductionHypothesis =>
    -- blocks are added at the end
    have before : ((List.range count).flatMap fun i =>
        (encryptWith (roundKeys key) (Block.ofNat (counter + i))).toBytes).length = count * 16 := by
      rw [List.flatMap_def, length_flatten_pieces 16 (by simp), List.length_map, List.length_range]
    dsimp only at *
    rw [List.range_succ, List.flatMap_append]
    by_cases old : position < count * 16
    · rw [List.getElem?_append_left (by omega)]
      exact inductionHypothesis old
    · obtain ⟨rest, rfl⟩ : ∃ rest, position = count * 16 + rest := ⟨position - count * 16, by omega⟩
      have number : (count * 16 + rest) / 16 = count := by omega
      have index : (count * 16 + rest) % 16 = rest := by omega
      rw [List.getElem?_append_right (by omega), before, number, index, Nat.add_sub_cancel_left,
        List.flatMap_singleton, List.getD_eq_getElem?_getD, List.getElem?_eq_getElem (by simp; omega)]
      rfl

theorem length_keystream (key : Block) (counter count : Nat) :
    (keystream key counter count).length = count * blockSize := by
  simp only [keystream]
  rw [List.flatMap_def, length_flatten_pieces blockSize (by simp [blockSize]), List.length_map,
    List.length_range]

theorem length_ctrAt (key base : Block) (offset : Nat) (data : Bytes) :
    (ctrAt key base offset data).length = data.length := by
  simp only [ctrAt]
  rw [Bytes.length_xor, List.length_drop, length_keystream]
  simp only [blockSize]
  omega

/-- A byte at a position of the stream is combined with the byte of the keystream there, whatever
    range of the stream it is read in. -/
theorem getElem?_ctrAt (key base : Block) (offset : Nat) (data : Bytes) (i : Nat) :
    (ctrAt key base offset data)[i]? = data[i]?.map (· ^^^ keystreamByte key base (offset + i)) := by
  simp only [ctrAt, Bytes.xor]
  rw [List.getElem?_zipWith, List.getElem?_drop]
  by_cases inside : i < data.length
  · have number : offset / blockSize + (offset % blockSize + i) / blockSize = (offset + i) / blockSize := by
      simp only [blockSize]
      omega
    have index : (offset % blockSize + i) % blockSize = (offset + i) % blockSize := by
      simp only [blockSize]
      omega
    rw [List.getElem?_eq_getElem inside, getElem?_keystream key (by unfold blockSize; omega),
      Nat.add_assoc, number, index]
    rfl
  · rw [List.getElem?_eq_none (by omega)]
    rfl

/-! ## Sectors and blocks -/

theorem length_tweaked (f : Block → Block) (blocks : List Block) :
    ∀ tweak, (tweaked f tweak blocks).length = blocks.length := by
  induction blocks with
  | nil => exact fun _ => rfl
  | cons first rest inductionHypothesis => exact fun tweak => congrArg (· + 1) (inductionHypothesis _)

theorem length_flatten (blocks : List Block) : (Block.flatten blocks).length = blocks.length * blockSize := by
  simp only [Block.flatten]
  rw [List.flatMap_def, length_flatten_pieces blockSize (by simp [blockSize]), List.length_map]

theorem length_chunks {size : Nat} (positive : 0 < size) (count : Nat) :
    ∀ bytes : Bytes, bytes.length = count * size → (bytes.chunks size).length = count := by
  induction count with
  | zero =>
    intro bytes short
    rw [Nat.zero_mul, List.length_eq_zero_iff] at short
    simp [short]
  | succ count inductionHypothesis =>
    intro bytes long
    rw [Nat.succ_mul] at long
    have nonempty : ¬ (size = 0 ∨ bytes = []) := by
      rintro (zero | rfl)
      · omega
      · rw [List.length_nil] at long; omega
    rw [Bytes.chunks, dif_neg nonempty, List.length_cons, inductionHypothesis]
    rw [List.length_drop]
    omega

/-- The decryption of one sector. -/
def decryptSector (key : XtsKey) (number : Nat) (sector : Bytes) : Bytes :=
  xtsSector (decryptWith (roundKeys key.data)) (roundKeys key.tweak) number sector

theorem length_decryptSector (key : XtsKey) (number : Nat) {sector : Bytes} (whole : 16 ∣ sector.length) :
    (decryptSector key number sector).length = sector.length := by
  obtain ⟨count, blocks⟩ := whole
  simp only [decryptSector, xtsSector, Block.ofChunks]
  rw [length_flatten, length_tweaked, List.length_map,
    length_chunks (by decide) count sector (by omega), blocks]
  simp only [blockSize]
  omega

/-- Sectors are decrypted one by one, each under its own number. -/
theorem xtsDecrypt_flatten (key : XtsKey) (first : Nat) {size : Nat} (positive : 0 < size)
    (aligned : size % blockSize = 0) {sectors : List Bytes}
    (whole : ∀ sector ∈ sectors, sector.length = size) :
    xtsDecrypt key first size sectors.flatten =
      .ok (sectors.zipIdx.flatMap fun (sector, i) => decryptSector key (first + i) sector) := by
  simp only [xtsDecrypt, xtsSectors]
  have fits : ¬ (size = 0 ∨ size % blockSize ≠ 0 ∨ sectors.flatten.length % size ≠ 0) := by
    rw [length_flatten_pieces _ whole, Nat.mul_mod_left]
    omega
  rw [if_neg fits, Bytes.chunks_flatten positive whole]
  rfl

theorem xtsDecrypt_misaligned (key : XtsKey) (first : Nat) {size : Nat} (misaligned : size % blockSize ≠ 0)
    (data : Bytes) : xtsDecrypt key first size data = .error (.crypto .partialSector) := by
  simp only [xtsDecrypt, xtsSectors]
  rw [if_pos (.inr (.inl misaligned))]

/-- Blocks are decrypted one by one. -/
theorem ecbDecrypt_flatten (key : Block) {blocks : List Bytes}
    (whole : ∀ block ∈ blocks, block.length = blockSize) :
    ecbDecrypt key blocks.flatten =
      .ok (blocks.flatMap fun block => (decryptBlock key (.ofBytes block)).toBytes) := by
  simp only [ecbDecrypt, wholeBlocks]
  rw [if_pos (by rw [length_flatten_pieces _ whole, Nat.mul_mod_left])]
  show Except.ok _ = _
  simp only [Block.ofChunks, Block.flatten]
  rw [Bytes.chunks_flatten (show 0 < 16 by decide) whole, List.map_map, List.flatMap_map]
  rfl

end Aes

end SealedContent
