import SealedContent.Aes.BlockLemmas
import SealedContent.Proofs.Aes.RoundTrips

/-! # Streams in order and in pieces

A stream under a keystream can be worked off in order, one block after the other, each under the counter behind the
one before: `Aes.sequential`. The modes of `Aes.Modes` start at any byte of it instead. Both give the same bytes,
in whatever pieces the stream is handed over: `Aes.ctr_sequential`.
-/

namespace SealedContent.Aes

variable {key counter : Block}

/-! ## Counters -/

/-- The counter behind this one. All of its bits count, and the last number is followed by zero. -/
def Block.next (counter : Block) : Block := .ofNat (counter.toNat + 1)

namespace Block

theorem ofNat_mod (n : Nat) : ofNat (n % 2 ^ 128) = ofNat n := by
  rw [← toNat_ofNat, ofNat_toNat]

theorem ofNat_mod_add (n count : Nat) : ofNat (n % 2 ^ 128 + count) = ofNat (n + count) := by
  rw [← ofNat_mod, Nat.mod_add_mod, ofNat_mod]

theorem ofNat_next_add (counter : Block) (count : Nat) :
    ofNat (counter.next.toNat + count) = ofNat (counter.toNat + (count + 1)) := by
  rw [next, toNat_ofNat, ofNat_mod_add, Nat.add_assoc, Nat.add_comm 1]

end Block

/-- Behind its first block a keystream is the one from the next counter on. -/
theorem keystreamByte_next (key counter : Block) (position : Nat) :
    keystreamByte key counter.next position = keystreamByte key counter (blockSize + position) := by
  have number : (blockSize + position) / blockSize = position / blockSize + 1 := Nat.add_div_left _ (by decide)
  rw [keystreamByte, keystreamByte, Block.ofNat_next_add, number, Nat.add_mod_left]

/-! ## Pieces -/

theorem ctrAt_append (key base : Block) (offset : Nat) (before after : Bytes) :
    ctrAt key base offset (before ++ after) =
      ctrAt key base offset before ++ ctrAt key base (offset + before.length) after := by
  apply List.ext_getElem?
  intro i
  rw [getElem?_ctrAt]
  by_cases front : i < before.length
  · rw [List.getElem?_append_left front, List.getElem?_append_left (by rw [length_ctrAt]; exact front),
      getElem?_ctrAt]
  · have place : offset + before.length + (i - before.length) = offset + i := by omega
    rw [List.getElem?_append_right (by omega), List.getElem?_append_right (by rw [length_ctrAt]; omega),
      getElem?_ctrAt, length_ctrAt, place]

/-- A piece at its own offset is that piece of the whole. -/
theorem ctrAt_window (key base : Block) (data : Bytes) (offset length : Nat) :
    ctrAt key base offset (data.window offset length) = (ctr key base data).window offset length := by
  apply List.ext_getElem?
  intro i
  rw [getElem?_ctrAt, ctr, Bytes.window, Bytes.window, List.getElem?_take, List.getElem?_take]
  split
  · rw [List.getElem?_drop, List.getElem?_drop, getElem?_ctrAt, Nat.zero_add]
  · rfl

/-- A string from an offset of a stream on, handed over in pieces, each at its own offset. -/
def ctrPieces (key base : Block) : (offset : Nat) → List Bytes → Bytes
  | _, [] => []
  | offset, piece :: rest => ctrAt key base offset piece ++ ctrPieces key base (offset + piece.length) rest

theorem ctrPieces_eq (key base : Block) (pieces : List Bytes) :
    ∀ offset, ctrPieces key base offset pieces = ctrAt key base offset pieces.flatten := by
  induction pieces with
  | nil => exact fun _ => rfl
  | cons piece rest inductionHypothesis =>
    intro offset
    rw [ctrPieces, inductionHypothesis, List.flatten_cons, ctrAt_append]

/-! ## Order -/

/-- A stream in order: a block of it is combined with the encrypted counter, and the rest goes on under the next
    counter. Of the last block only as many bytes are used as are left. -/
def sequential (key counter : Block) (data : Bytes) : Bytes :=
  if _h : data = [] then []
  else Bytes.xor (data.take blockSize) (encryptBlock key counter).toBytes ++
    sequential key counter.next (data.drop blockSize)
termination_by data.length
decreasing_by
  have := List.length_pos_iff.mpr _h
  simp only [List.length_drop, blockSize]
  omega

theorem ctr_short (key counter : Block) {data : Bytes} (short : data.length ≤ blockSize) :
    ctr key counter data = Bytes.xor data (encryptBlock key counter).toBytes := by
  apply List.ext_getElem?
  intro i
  rw [ctr, getElem?_ctrAt, Bytes.xor, List.getElem?_zipWith]
  by_cases inside : i < data.length
  · have first : i / blockSize = 0 := Nat.div_eq_of_lt (by omega)
    have place : i % blockSize = i := Nat.mod_eq_of_lt (by omega)
    have there : i < (encryptBlock key counter).toBytes.length := by
      rw [Block.length_toBytes]
      exact Nat.lt_of_lt_of_le inside short
    rw [Nat.zero_add, keystreamByte, first, place, Nat.add_zero, Block.ofNat_toNat, List.getElem?_eq_getElem inside,
      List.getElem?_eq_getElem there, List.getD_eq_getElem?_getD, List.getElem?_eq_getElem there]
    rfl
  · rw [List.getElem?_eq_none (by omega)]
    rfl

theorem ctrAt_next (key counter : Block) (offset : Nat) (data : Bytes) :
    ctrAt key counter.next offset data = ctrAt key counter (blockSize + offset) data := by
  apply List.ext_getElem?
  intro i
  rw [getElem?_ctrAt, getElem?_ctrAt, keystreamByte_next, Nat.add_assoc]

theorem sequential_eq (key counter : Block) (data : Bytes) : sequential key counter data = ctr key counter data := by
  fun_induction sequential key counter data with
  | case1 => rfl
  | case2 counter data nonempty inductionHypothesis =>
    have short : (data.take blockSize).length ≤ blockSize := by
      rw [List.length_take]
      exact Nat.min_le_left _ _
    rw [inductionHypothesis, ← ctr_short key counter short]
    by_cases more : blockSize ≤ data.length
    · have long : (data.take blockSize).length = blockSize := by rw [List.length_take, Nat.min_eq_left more]
      conv_rhs => rw [← List.take_append_drop blockSize data]
      rw [ctr, ctr, ctr, ctrAt_append, ctrAt_next, long, Nat.zero_add, Nat.add_zero]
    -- nothing is left behind a last short block
    · rw [List.drop_eq_nil_of_le (by omega), List.take_of_length_le (by omega)]
      exact List.append_nil _

/-! ## Random access -/

/-- What is done at the offsets of a stream is what is done to it in order, from any counter on: two halves are the
    whole, every piece of it at its own offset is that piece of the whole, pieces one behind the other are the whole
    however it was cut, and the same once more gives the stream back. -/
theorem ctr_sequential (key counter : Block) :
    (∀ data, ctr key counter data = sequential key counter data) ∧
    (∀ before after, ctr key counter (before ++ after) =
      ctr key counter before ++ ctrAt key counter before.length after) ∧
    (∀ data, ctr key counter (ctr key counter data) = data) ∧
    (∀ data offset length, ctrAt key counter offset (data.window offset length) =
      (ctr key counter data).window offset length) ∧
    ∀ pieces, ctrPieces key counter 0 pieces = ctr key counter pieces.flatten := by
  refine ⟨fun data => (sequential_eq key counter data).symm, fun before after => ?_, ctrAt_ctrAt key counter 0,
    ctrAt_window key counter, fun pieces => ctrPieces_eq key counter pieces 0⟩
  rw [ctr, ctr, ctrAt_append, Nat.zero_add]

end SealedContent.Aes
