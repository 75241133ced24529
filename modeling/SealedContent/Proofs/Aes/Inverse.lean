import Mathlib.Data.List.Basic
import SealedContent.Aes.Cipher

/-! # Decryption of blocks inverts encryption

Every layer of a round is inverse to the layer of the same place in decryption: substitution, the
rotation of rows, the mixing of columns and the round key. Main statements: `decryptBlock_encryptBlock`
and `encryptBlock_decryptBlock`, with `decryptWith_encryptWith` and `encryptWith_decryptWith` for round
keys that are ready made.

`Number` has the field of bytes again on natural numbers, where closed computations are fast.
-/

namespace SealedContent.Aes

/-! ## Bytes as numbers -/

namespace Number

/-- Multiplication by `x` on numbers below 256. -/
def double (b : Nat) : Nat := (2 * b) ^^^ (0x11b * (b / 128))

/-- The product of the field, from the lowest bits of the second factor. -/
def product : (bits a b : Nat) → Nat
  | 0, _, _ => 0
  | bits + 1, a, b => (a * (b % 2)) ^^^ product bits (double a) (b / 2)

/-- The power that inversion raises to, with the squarings that are still to be done. -/
def invert : (squarings power x : Nat) → Nat
  | 0, power, _ => power
  | squarings + 1, power, x =>
    let square := product 8 x x
    invert squarings (product 8 power square) square

theorem invert_invert : ∀ b : Fin 256, invert 7 1 (invert 7 1 b) = b := by decide +kernel

end Number

theorem forall_byte {P : UInt8 → Prop} (all : ∀ n : Fin 256, P (.ofNat n)) (b : UInt8) : P b := by
  have here := all ⟨b.toNat, b.toNat_lt⟩
  simpa using here

theorem repeat_succ {α : Type} (f : α → α) (n : Nat) (a : α) :
    Nat.repeat f (n + 1) a = Nat.repeat f n (f a) := by
  induction n with
  | zero => rfl
  | succ n inductionHypothesis => exact congrArg f inductionHypothesis

theorem toNat_double (b : UInt8) : (double b).toNat = Number.double b.toNat := by
  revert b
  exact forall_byte (by decide +kernel)

theorem toNat_bit (b : UInt8) : b &&& 1 = 0 ∧ b.toNat % 2 = 0 ∨ b &&& 1 ≠ 0 ∧ b.toNat % 2 = 1 := by
  revert b
  exact forall_byte (by decide +kernel)

theorem toNat_product (a b : UInt8) : (product a b).toNat = Number.product 8 a.toNat b.toNat := by
  have steps : ∀ (bits : Nat) (a b sum : UInt8), (Nat.repeat (fun state : UInt8 × UInt8 × UInt8 =>
      (double state.1, state.2.1 >>> 1,
        if state.2.1 &&& 1 = 0 then state.2.2 else state.2.2 ^^^ state.1)) bits (a, b, sum)).2.2.toNat =
      sum.toNat ^^^ Number.product bits a.toNat b.toNat := by
    intro bits
    induction bits with
    | zero => exact fun a b sum => (Nat.xor_zero _).symm
    | succ bits inductionHypothesis =>
      intro a b sum
      have half : (b >>> 1).toNat = b.toNat / 2 := by
        rw [UInt8.toNat_shiftRight]
        rfl
      rw [repeat_succ, inductionHypothesis, toNat_double, half, Number.product]
      obtain ⟨even, low⟩ | ⟨odd, low⟩ := toNat_bit b
      · rw [if_pos even, low, Nat.mul_zero, Nat.zero_xor]
      · rw [if_neg odd, low, Nat.mul_one, UInt8.toNat_xor, Nat.xor_assoc]
  exact (steps 8 a b 0).trans (Nat.zero_xor _)

theorem toNat_inverse (b : UInt8) : (inverse b).toNat = Number.invert 7 1 b.toNat := by
  have steps : ∀ (squarings : Nat) (power x : UInt8), (Nat.repeat (fun state : UInt8 × UInt8 =>
      (product state.1 (product state.2 state.2), product state.2 state.2)) squarings
        (power, x)).1.toNat = Number.invert squarings power.toNat x.toNat := by
    intro squarings
    induction squarings with
    | zero => exact fun _ _ => rfl
    | succ squarings inductionHypothesis =>
      intro power x
      rw [repeat_succ, inductionHypothesis, toNat_product, toNat_product]
      rfl
  exact steps 7 1 b

theorem inverse_inverse (b : UInt8) : inverse (inverse b) = b := by
  apply UInt8.toNat_inj.mp
  rw [toNat_inverse, toNat_inverse]
  exact Number.invert_invert ⟨b.toNat, b.toNat_lt⟩

/-! ## Substitution -/

/-- The affine map behind the inverse in a substitution. -/
def affine (b : UInt8) : UInt8 := b ^^^ rotl b 1 ^^^ rotl b 2 ^^^ rotl b 3 ^^^ rotl b 4 ^^^ 0x63

/-- The affine map before the inverse when a substitution is undone. -/
def unaffine (b : UInt8) : UInt8 := rotl b 1 ^^^ rotl b 3 ^^^ rotl b 6 ^^^ 0x05

theorem get_ofFn {α : Type} {n : Nat} (f : Fin n → α) (i : Fin n) : (Vector.ofFn f).get i = f i :=
  Vector.getElem_ofFn i.isLt

theorem substitute_eq (b : UInt8) : substitute b = affine (inverse b) := by
  rw [substitute, substitutions, get_ofFn, UInt8.ofNat_toNat]
  rfl

theorem unsubstitute_eq (b : UInt8) : unsubstitute b = inverse (unaffine b) := by
  rw [unsubstitute, inverseSubstitutions, get_ofFn, UInt8.ofNat_toNat]
  rfl

theorem unaffine_affine (b : UInt8) : unaffine (affine b) = b := by
  revert b
  exact forall_byte (by decide +kernel)

theorem affine_unaffine (b : UInt8) : affine (unaffine b) = b := by
  revert b
  exact forall_byte (by decide +kernel)

theorem unsubstitute_substitute (b : UInt8) : unsubstitute (substitute b) = b := by
  rw [substitute_eq, unsubstitute_eq, unaffine_affine, inverse_inverse]

theorem substitute_unsubstitute (b : UInt8) : substitute (unsubstitute b) = b := by
  rw [unsubstitute_eq, substitute_eq, inverse_inverse, affine_unaffine]

/-! ## Columns -/

theorem xor_left_comm (a b c : UInt8) : a ^^^ (b ^^^ c) = b ^^^ (a ^^^ c) := by
  rw [← UInt8.xor_assoc, UInt8.xor_comm a, UInt8.xor_assoc]

theorem xor_cancel_left (a b : UInt8) : a ^^^ (a ^^^ b) = b := by
  rw [← UInt8.xor_assoc, UInt8.xor_self, UInt8.zero_xor]

theorem double_xor (a b : UInt8) : double (a ^^^ b) = double a ^^^ double b := by
  have top : ∀ c : UInt8, c &&& 0x80 = 0 ∨ c &&& 0x80 = 0x80 := forall_byte (by decide +kernel)
  have split : (a ^^^ b) &&& 0x80 = (a &&& 0x80) ^^^ (b &&& 0x80) := by
    apply UInt8.toNat_inj.mp
    rw [UInt8.and_comm, UInt8.and_comm a, UInt8.and_comm b]
    exact Nat.and_xor_distrib_left
  simp only [double, split, UInt8.shiftLeft_xor]
  -- the polynomial is subtracted once, twice or not at all
  obtain low | high := top a <;> obtain low' | high' := top b <;>
    simp [*, UInt8.xor_assoc, UInt8.xor_comm, xor_left_comm]

/-- The product of a column with the circulant of 5, 0, 4, 0. -/
def mixTwice (a : Column) : Column :=
  let even := double (double (a.b0 ^^^ a.b2))
  let odd := double (double (a.b1 ^^^ a.b3))
  ⟨a.b0 ^^^ even, a.b1 ^^^ odd, a.b2 ^^^ even, a.b3 ^^^ odd⟩

/-- One byte of a column that is mixed twice: `all` is the sum of the column, which mixing keeps. -/
theorem mixed_twice (a b c all : UInt8) :
    (a ^^^ all ^^^ double (a ^^^ b)) ^^^ all ^^^
      double ((a ^^^ all ^^^ double (a ^^^ b)) ^^^ (b ^^^ all ^^^ double (b ^^^ c))) =
    a ^^^ double (double (a ^^^ c)) := by
  have sum : (a ^^^ all ^^^ double (a ^^^ b)) ^^^ (b ^^^ all ^^^ double (b ^^^ c)) =
      (a ^^^ b) ^^^ double (a ^^^ c) := by
    simp only [double_xor, UInt8.xor_assoc, xor_left_comm, xor_cancel_left]
  rw [sum, double_xor (a ^^^ b) (double (a ^^^ c))]
  simp only [UInt8.xor_assoc, xor_left_comm, xor_cancel_left]

theorem mixed_sum (a b c d all : UInt8) :
    (a ^^^ all ^^^ double (a ^^^ b)) ^^^ (b ^^^ all ^^^ double (b ^^^ c)) ^^^
      (c ^^^ all ^^^ double (c ^^^ d)) ^^^ (d ^^^ all ^^^ double (d ^^^ a)) = a ^^^ b ^^^ c ^^^ d := by
  simp only [double_xor, UInt8.xor_assoc, UInt8.xor_comm, xor_left_comm, xor_cancel_left, UInt8.xor_self,
    UInt8.xor_zero]

theorem mixColumn_mixColumn (a : Column) : mixColumn (mixColumn a) = mixTwice a := by
  have sum := mixed_sum a.b0 a.b1 a.b2 a.b3 (a.b0 ^^^ a.b1 ^^^ a.b2 ^^^ a.b3)
  simp only [mixColumn, sum, mixed_twice, mixTwice, UInt8.xor_comm a.b2 a.b0, UInt8.xor_comm a.b3 a.b1]

theorem mixTwice_mixTwice (a : Column) : mixTwice (mixTwice a) = a := by
  have pair : ∀ b c e : UInt8, (b ^^^ e) ^^^ (c ^^^ e) = b ^^^ c := by
    intro b c e
    rw [UInt8.xor_comm c e, UInt8.xor_assoc, xor_cancel_left]
  simp only [mixTwice, pair, UInt8.xor_assoc, UInt8.xor_self, UInt8.xor_zero]

theorem unmixColumn_eq (a : Column) : unmixColumn a = mixColumn (mixTwice a) := rfl

theorem unmixColumn_mixColumn (a : Column) : unmixColumn (mixColumn a) = a := by
  rw [unmixColumn_eq, ← mixColumn_mixColumn (mixColumn a), mixColumn_mixColumn, mixColumn_mixColumn,
    mixTwice_mixTwice]

theorem mixColumn_unmixColumn (a : Column) : mixColumn (unmixColumn a) = a := by
  rw [unmixColumn_eq, mixColumn_mixColumn, mixTwice_mixTwice]

/-! ## Rounds -/

namespace Block

variable {f g : UInt8 → UInt8} {F G : Column → Column}

theorem mapColumns_inverse (inverts : ∀ a, F (G a) = a) (a : Block) : (a.mapColumns G).mapColumns F = a := by
  simp only [mapColumns, inverts]

theorem mapBytes_inverse (inverts : ∀ b, f (g b) = b) (a : Block) :
    (a.mapColumns (Column.map g)).mapColumns (Column.map f) = a :=
  mapColumns_inverse (fun a => by simp only [Column.map, inverts]) a

end Block

theorem unshiftRows_shiftRows (a : Block) : unshiftRows (shiftRows a) = a := rfl

theorem shiftRows_unshiftRows (a : Block) : shiftRows (unshiftRows a) = a := rfl

theorem encryptRounds_last (k a : Block) :
    encryptRounds [k] a = (shiftRows (a.mapColumns (Column.map substitute))).xor k := rfl

theorem encryptRounds_next (k next : Block) (keys : List Block) (a : Block) :
    encryptRounds (k :: next :: keys) a = encryptRounds (next :: keys)
      (((shiftRows (a.mapColumns (Column.map substitute))).mapColumns mixColumn).xor k) := rfl

theorem decryptRounds_last (k a : Block) :
    decryptRounds [k] a = (unshiftRows (a.xor k)).mapColumns (Column.map unsubstitute) := rfl

theorem decryptRounds_next (k next : Block) (keys : List Block) (a : Block) :
    decryptRounds (k :: next :: keys) a =
      (unshiftRows (((decryptRounds (next :: keys) a).xor k).mapColumns unmixColumn)).mapColumns
        (Column.map unsubstitute) := rfl

theorem decryptRounds_encryptRounds (keys : List Block) :
    ∀ a, decryptRounds keys (encryptRounds keys a) = a := by
  induction keys with
  | nil => exact fun _ => rfl
  | cons k keys inductionHypothesis =>
    intro a
    cases keys with
    | nil =>
      rw [encryptRounds_last, decryptRounds_last, Block.xor_self_right, unshiftRows_shiftRows,
        Block.mapBytes_inverse unsubstitute_substitute]
    | cons next keys =>
      rw [encryptRounds_next, decryptRounds_next, inductionHypothesis, Block.xor_self_right,
        Block.mapColumns_inverse unmixColumn_mixColumn, unshiftRows_shiftRows,
        Block.mapBytes_inverse unsubstitute_substitute]

theorem encryptRounds_decryptRounds (keys : List Block) :
    ∀ a, encryptRounds keys (decryptRounds keys a) = a := by
  induction keys with
  | nil => exact fun _ => rfl
  | cons k keys inductionHypothesis =>
    intro a
    cases keys with
    | nil =>
      rw [encryptRounds_last, decryptRounds_last, Block.mapBytes_inverse substitute_unsubstitute,
        shiftRows_unshiftRows, Block.xor_self_right]
    | cons next keys =>
      rw [encryptRounds_next, decryptRounds_next, Block.mapBytes_inverse substitute_unsubstitute, shiftRows_unshiftRows,
        Block.mapColumns_inverse mixColumn_unmixColumn, Block.xor_self_right, inductionHypothesis]

/-! ## Blocks -/

theorem decryptWith_encryptWith (keys : List Block) (a : Block) :
    decryptWith keys (encryptWith keys a) = a := by
  cases keys with
  | nil => rfl
  | cons k keys => rw [encryptWith, decryptWith, decryptRounds_encryptRounds, Block.xor_self_right]

theorem encryptWith_decryptWith (keys : List Block) (a : Block) :
    encryptWith keys (decryptWith keys a) = a := by
  cases keys with
  | nil => rfl
  | cons k keys => rw [encryptWith, decryptWith, Block.xor_self_right, encryptRounds_decryptRounds]

theorem decryptBlock_encryptBlock (key a : Block) : decryptBlock key (encryptBlock key a) = a :=
  decryptWith_encryptWith _ a

theorem encryptBlock_decryptBlock (key a : Block) : encryptBlock key (decryptBlock key a) = a :=
  encryptWith_decryptWith _ a

end SealedContent.Aes
