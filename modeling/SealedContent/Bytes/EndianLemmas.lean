import Mathlib.Algebra.Order.Ring.Nat
import SealedContent.Bytes.Endian

/-! # Laws of numbers in bytes

In both byte orders a string of `width` bytes stands for a number below `256 ^ width`, and decoding
an encoding gives the number modulo `256 ^ width`. Strings one behind the other stand for the digits of one
number. Big-endian numbers of one width are ordered as their bytes are.
-/

namespace SealedContent

namespace LittleEndian

/-- Decoding an encoding gives the number modulo `256 ^ width`. -/
theorem decode_encode (width n : Nat) : decode (encode width n) = n % 256 ^ width := by
  induction width generalizing n with
  | zero => simp [encode, decode, Nat.mod_one]
  | succ width ih =>
    have h : n % 256 % 2 ^ 8 = n % 256 := Nat.mod_eq_of_lt (by omega)
    rw [encode, decode, ih, UInt8.toNat_ofNat', h, Nat.pow_succ', Nat.mod_mul]

/-- A byte string stands for a number that its length bounds. -/
theorem decode_lt (bytes : Bytes) : decode bytes < 256 ^ bytes.length := by
  induction bytes with
  | nil => simp [decode]
  | cons b rest ih =>
    have hb : b.toNat < 256 := b.toNat_lt
    rw [decode, List.length_cons, Nat.pow_succ]
    omega

theorem decode_append (low high : Bytes) :
    decode (low ++ high) = decode low + 256 ^ low.length * decode high := by
  induction low with
  | nil => simp [decode]
  | cons b rest ih =>
    rw [List.cons_append, decode, decode, ih, List.length_cons, Nat.pow_succ', Nat.mul_add, Nat.mul_assoc,
      Nat.add_assoc]

theorem encode_add (low high n : Nat) : encode (low + high) n = encode low n ++ encode high (n / 256 ^ low) := by
  induction low generalizing n with
  | zero => simp [encode]
  | succ low ih =>
    rw [Nat.succ_add, encode, encode, ih, Nat.div_div_eq_div_mul, ← Nat.pow_succ', List.cons_append]

/-- Only the low bytes of a number are encoded. -/
theorem encode_mod (width n : Nat) : encode width (n % 256 ^ width) = encode width n := by
  have again := encode_decode (encode width n)
  rwa [length_encode, decode_encode] at again

end LittleEndian

namespace BigEndian

/-- Decoding an encoding gives the number modulo `256 ^ width`. -/
theorem decode_encode (width n : Nat) : decode (encode width n) = n % 256 ^ width := by
  rw [decode_eq, encode, List.reverse_reverse, LittleEndian.decode_encode]

/-- A byte string stands for a number that its length bounds. -/
theorem decode_lt (bytes : Bytes) : decode bytes < 256 ^ bytes.length := by
  rw [decode_eq, ← List.length_reverse]
  exact LittleEndian.decode_lt bytes.reverse

theorem decode_append (high low : Bytes) : decode (high ++ low) = 256 ^ low.length * decode high + decode low := by
  rw [decode_eq, decode_eq, decode_eq, List.reverse_append, LittleEndian.decode_append, List.length_reverse,
    Nat.add_comm]

theorem decode_cons (b : UInt8) (rest : Bytes) :
    decode (b :: rest) = 256 ^ rest.length * b.toNat + decode rest := by
  have digit : decode [b] = b.toNat := by simp [decode]
  rw [← List.singleton_append, decode_append, digit]

theorem encode_add (high low n : Nat) : encode (high + low) n = encode high (n / 256 ^ low) ++ encode low n := by
  rw [encode, Nat.add_comm, LittleEndian.encode_add, List.reverse_append]
  rfl

theorem encode_mod (width n : Nat) : encode width (n % 256 ^ width) = encode width n := by
  rw [encode, LittleEndian.encode_mod, encode]

/-- The higher digits decide, and the lower ones if these are the same. -/
theorem digits_lt_iff {base a b x y : Nat} (hx : x < base) (hy : y < base) :
    base * a + x < base * b + y ↔ a < b ∨ a = b ∧ x < y := by
  obtain below | rfl | above := Nat.lt_trichotomy a b
  · have apart := Nat.mul_le_mul_left base below
    rw [Nat.mul_succ] at apart
    omega
  · omega
  · have apart := Nat.mul_le_mul_left base above
    rw [Nat.mul_succ] at apart
    omega

/-- Numbers of one width are ordered as their bytes are. -/
theorem decode_lt_decode_iff {first second : Bytes} (same : first.length = second.length) :
    decode first < decode second ↔ first < second := by
  induction first generalizing second with
  | nil =>
    rw [List.eq_nil_of_length_eq_zero same.symm]
    exact iff_of_false (Nat.lt_irrefl _) (List.lt_irrefl _)
  | cons a first ih =>
    match second, same with
    | b :: second, same =>
      have long : first.length = second.length := Nat.succ.inj same
      have hfirst := decode_lt first
      rw [long] at hfirst
      rw [List.cons_lt_cons_iff, ← ih long, decode_cons, decode_cons, long,
        digits_lt_iff hfirst (decode_lt second), UInt8.lt_iff_toNat_lt, UInt8.toNat_inj]

end BigEndian

end SealedContent
