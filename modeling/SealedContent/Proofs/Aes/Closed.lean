import SealedContent.Aes.Modes
import SealedContent.Proofs.Aes.Inverse

/-! # Encryption of closed blocks

The cipher over any substitution, so that a closed block is encrypted in a proof with substitutions that are
computed on numbers. Those of the cipher stand in a vector of all of them, which has to be made first.
-/

namespace SealedContent.Aes

variable {f : UInt8 → UInt8}

/-! ## Any substitution -/

def nextRoundKeyBy (f : UInt8 → UInt8) (k : Block) (constant : UInt8) : Block :=
  let t : Column := ⟨f k.c3.b1 ^^^ constant, f k.c3.b2, f k.c3.b3, f k.c3.b0⟩
  let c0 := k.c0.xor t
  let c1 := k.c1.xor c0
  let c2 := k.c2.xor c1
  ⟨c0, c1, c2, k.c3.xor c2⟩

def roundKeysBy (f : UInt8 → UInt8) (key : Block) : List Block :=
  let constants : List UInt8 := [1, 2, 4, 8, 16, 32, 64, 128, 0x1b, 0x36]
  (constants.foldl (fun (k, keys) c =>
    let next := nextRoundKeyBy f k c
    (next, next :: keys)) (key, [key])).2.reverse

def encryptRoundsBy (f : UInt8 → UInt8) : List Block → Block → Block
  | [], a => a
  | [k], a => (shiftRows (a.mapColumns (Column.map f))).xor k
  | k :: keys, a => encryptRoundsBy f keys (((shiftRows (a.mapColumns (Column.map f))).mapColumns mixColumn).xor k)

def encryptBlockBy (f : UInt8 → UInt8) (key a : Block) : Block :=
  match roundKeysBy f key with
  | [] => a
  | k :: keys => encryptRoundsBy f keys (a.xor k)

theorem encryptRounds_eq_by (keys : List Block) : ∀ a, encryptRounds keys a = encryptRoundsBy substitute keys a := by
  induction keys with
  | nil => exact fun _ => rfl
  | cons k keys inductionHypothesis =>
    intro a
    cases keys with
    | nil => rfl
    | cons next keys => exact inductionHypothesis _

/-! ## Numbers -/

/-- The substitution of one byte. -/
def Number.substitute (b : UInt8) : UInt8 := affine (.ofNat (invert 7 1 b.toNat))

theorem Number.substitute_eq : Aes.substitute = substitute := by
  funext b
  rw [Aes.substitute_eq, substitute, ← toNat_inverse, UInt8.ofNat_toNat]

theorem encryptBlock_eq_by (key a : Block) : encryptBlock key a = encryptBlockBy Number.substitute key a := by
  rw [← Number.substitute_eq, encryptBlock, encryptBlockBy, show roundKeysBy substitute key = roundKeys key from rfl]
  cases roundKeys key with
  | nil => rfl
  | cons k keys => exact encryptRounds_eq_by keys _

theorem keystream_eq_by (key : Block) (counter count : Nat) : keystream key counter count =
    (List.range count).flatMap fun i => (encryptBlockBy Number.substitute key (.ofNat (counter + i))).toBytes := by
  simp only [← encryptBlock_eq_by]
  rfl

end SealedContent.Aes
