import SealedContent.Aes.Block
import SealedContent.Bytes.EndianLemmas

/-! # Laws of blocks as numbers

The block of a number has that number modulo `2 ^ 128`. Blocks are ordered by their numbers as by their bytes.
-/

namespace SealedContent.Aes.Block

/-- The block of a number has that number modulo `2 ^ 128`. -/
theorem toNat_ofNat (n : Nat) : (ofNat n).toNat = n % 2 ^ 128 := by
  have h : (256 : Nat) ^ 16 = 2 ^ 128 := by decide
  rw [toNat, toBytes_ofNat, BigEndian.decode_encode, ← h]

theorem toNat_lt_toNat_iff (a b : Block) : a.toNat < b.toNat ↔ a.toBytes < b.toBytes :=
  BigEndian.decode_lt_decode_iff rfl

end SealedContent.Aes.Block
