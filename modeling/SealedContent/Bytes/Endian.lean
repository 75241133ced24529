import SealedContent.Bytes

/-! # Numbers in bytes

Fixed-width numbers in both byte orders:

* `LittleEndian.encode`, `LittleEndian.decode` — least significant byte first.
* `BigEndian.encode`, `BigEndian.decode`, `BigEndian.minimal` — most significant byte first.

Encoding keeps the low `8 * width` bits, and encoding a decoded string gives the string back.
-/

namespace SealedContent

namespace LittleEndian

/-- The `width` low bytes of `n`, least significant first. -/
def encode : (width : Nat) → (n : Nat) → Bytes
  | 0, _ => []
  | width + 1, n => UInt8.ofNat (n % 256) :: encode width (n / 256)

/-- The number whose bytes, least significant first, are given. -/
def decode : Bytes → Nat
  | [] => 0
  | b :: rest => b.toNat + 256 * decode rest

@[simp] theorem length_encode (width n : Nat) : (encode width n).length = width := by
  induction width generalizing n with
  | zero => rfl
  | succ width ih => simp [encode, ih]

theorem encode_decode (bytes : Bytes) : encode bytes.length (decode bytes) = bytes := by
  induction bytes with
  | nil => rfl
  | cons b rest ih =>
    have hb : b.toNat < 256 := b.toNat_lt
    rw [List.length_cons, encode, decode]
    congr 1
    · rw [Nat.add_mul_mod_self_left, Nat.mod_eq_of_lt hb, UInt8.ofNat_toNat]
    · rw [Nat.add_mul_div_left _ _ (by omega), Nat.div_eq_of_lt hb, Nat.zero_add, ih]

end LittleEndian

namespace BigEndian

/-- The `width` low bytes of `n`, most significant first. -/
def encode (width n : Nat) : Bytes := (LittleEndian.encode width n).reverse

/-- The number whose bytes, most significant first, are given. -/
def decode (bytes : Bytes) : Nat := bytes.foldl (fun n b => n * 256 + b.toNat) 0

/-- The fewest bytes that hold `n`, most significant first; zero takes one. -/
def minimal (n : Nat) : Bytes := encode (n.log2 / 8 + 1) n

@[simp] theorem length_encode (width n : Nat) : (encode width n).length = width := by
  simp [encode]

theorem decode_eq (bytes : Bytes) : decode bytes = LittleEndian.decode bytes.reverse := by
  have step : ∀ (bytes : Bytes) (n : Nat), bytes.foldl (fun n b => n * 256 + b.toNat) n =
      LittleEndian.decode bytes.reverse + 256 ^ bytes.length * n := by
    have snoc : ∀ (bytes : Bytes) (b : UInt8), LittleEndian.decode (bytes ++ [b]) =
        LittleEndian.decode bytes + 256 ^ bytes.length * b.toNat := by
      intro bytes b
      induction bytes with
      | nil => simp [LittleEndian.decode]
      | cons a rest ih =>
        simp only [List.cons_append, LittleEndian.decode, ih, List.length_cons, Nat.pow_succ']
        rw [Nat.mul_add, Nat.mul_assoc, Nat.add_assoc]
    intro bytes
    induction bytes with
    | nil => simp [LittleEndian.decode]
    | cons b rest ih =>
      intro n
      rw [List.foldl_cons, ih, List.reverse_cons, snoc, List.length_reverse, List.length_cons,
        Nat.pow_succ, Nat.mul_add, Nat.mul_comm n 256, ← Nat.mul_assoc]
      omega
  simpa [decode] using step bytes 0

theorem encode_decode (bytes : Bytes) : encode bytes.length (decode bytes) = bytes := by
  rw [decode_eq, encode, ← List.length_reverse, LittleEndian.encode_decode, List.reverse_reverse]

end BigEndian

end SealedContent
