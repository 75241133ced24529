import Mathlib.FieldTheory.Finite.Basic
import SealedContent.Rsa.PrivateKey

/-! # Square roots of one

A residue whose square is 1 modulo an odd number splits that number: what the number shares with the residue
less one is coprime to the rest (`coprime_of_square`), and it is a proper factor unless the residue is 1 or -1
(`proper_of_square`). `ladder` is the sequence of residues that squaring a power of a witness again and again
gives; `Reveals` says that it reaches 1 through such a residue.
-/

namespace SealedContent.Rsa

/-- Squaring and multiplying gives the remainder of the power. -/
theorem powMod_eq (modulus base exponent : Nat) : powMod modulus base exponent = base ^ exponent % modulus := by
  fun_induction powMod modulus base exponent with
  | case1 => simp
  | case2 base exponent positive half even inductionHypothesis =>
    have squares : base ^ exponent = (base * base) ^ (exponent / 2) := by
      rw [← Nat.pow_two, ← Nat.pow_mul]; congr 1; omega
    rw [show half = _ from inductionHypothesis, squares, ← Nat.pow_mod]
  | case3 base exponent positive half odd inductionHypothesis =>
    have squares : base ^ exponent = base * (base * base) ^ (exponent / 2) := by
      rw [← Nat.pow_two, ← Nat.pow_mul, ← Nat.pow_succ']; congr 1; omega
    rw [show half = _ from inductionHypothesis, squares, ← Nat.pow_mod, Nat.mul_mod_mod]

variable {n root : Nat}

/-! ## Factors from a root -/

theorem pos_of_square (square : root ^ 2 % n = 1) : 0 < root := by
  cases root with
  | zero => simp at square
  | succ less => exact Nat.succ_pos less

/-- The modulus divides the product of the neighbours of a root. -/
theorem dvd_of_square (square : root ^ 2 % n = 1) : n ∣ (root - 1) * (root + 1) := by
  obtain ⟨less, rfl⟩ := Nat.exists_eq_succ_of_ne_zero (Nat.ne_of_gt (pos_of_square square))
  have division := Nat.div_add_mod ((less + 1) ^ 2) n
  rw [square] at division
  have expand : (less + 1) ^ 2 = less * (less + 1 + 1) + 1 := by ring
  refine ⟨(less + 1) ^ 2 / n, ?_⟩
  show less * (less + 1 + 1) = _
  omega

/-- What an odd modulus shares with a root less one is coprime to what it does not. -/
theorem coprime_of_square (odd : n % 2 = 1) (square : root ^ 2 % n = 1) :
    Nat.Coprime (Nat.gcd (root - 1) n) (n / Nat.gcd (root - 1) n) := by
  have positive : 0 < n := by omega
  have factorPos : 0 < Nat.gcd (root - 1) n := Nat.gcd_pos_of_pos_right _ positive
  -- the rest of the modulus divides the upper neighbour
  have upper : n / Nat.gcd (root - 1) n ∣ root + 1 := by
    have reduced : Nat.Coprime (n / Nat.gcd (root - 1) n) ((root - 1) / Nat.gcd (root - 1) n) :=
      (Nat.coprime_div_gcd_div_gcd factorPos).symm
    refine reduced.dvd_of_dvd_mul_left ?_
    refine Nat.dvd_of_mul_dvd_mul_left factorPos ?_
    rw [Nat.mul_div_cancel' (Nat.gcd_dvd_right _ _), ← Nat.mul_assoc,
      Nat.mul_div_cancel' (Nat.gcd_dvd_left _ _)]
    exact dvd_of_square square
  -- a common divisor divides both neighbours, which are two apart, and the modulus, which is odd
  have common : Nat.gcd (Nat.gcd (root - 1) n) (n / Nat.gcd (root - 1) n) ∣ 2 := by
    have below : Nat.gcd (Nat.gcd (root - 1) n) (n / Nat.gcd (root - 1) n) ∣ root - 1 :=
      (Nat.gcd_dvd_left _ _).trans (Nat.gcd_dvd_left _ _)
    have above : Nat.gcd (Nat.gcd (root - 1) n) (n / Nat.gcd (root - 1) n) ∣ root - 1 + 2 := by
      rw [show root - 1 + 2 = root + 1 by have := pos_of_square square; omega]
      exact (Nat.gcd_dvd_right _ _).trans upper
    exact (Nat.dvd_add_right below).mp above
  have inModulus : Nat.gcd (Nat.gcd (root - 1) n) (n / Nat.gcd (root - 1) n) ∣ n :=
    (Nat.gcd_dvd_left _ _).trans (Nat.gcd_dvd_right _ _)
  obtain one | two := (Nat.dvd_prime Nat.prime_two).mp common
  · exact one
  · rw [two] at inModulus
    omega

/-- A root other than 1 and -1 shares a proper factor with the modulus. -/
theorem proper_of_square (square : root ^ 2 % n = 1) (small : root < n) (notOne : root ≠ 1)
    (notLast : root ≠ n - 1) : Nat.gcd (root - 1) n ≠ 1 ∧ Nat.gcd (root - 1) n ≠ n := by
  have positive := pos_of_square square
  constructor
  · intro coprime
    have upper : n ∣ root + 1 :=
      (Nat.Coprime.symm coprime).dvd_of_dvd_mul_left (dvd_of_square square)
    have := Nat.le_of_dvd (Nat.succ_pos root) upper
    omega
  · intro whole
    have lower : n ∣ root - 1 := Nat.gcd_eq_right_iff_dvd.mp whole
    have := Nat.le_of_dvd (by omega) lower
    omega

/-! ## Ladders -/

/-- The residue of a power of a witness after some squarings. -/
def ladder (n r w : Nat) (squarings : Nat) : Nat := w ^ (2 ^ squarings * r) % n

/-- The witness is coprime to the modulus, and the first 1 on its ladder is not the first residue and does
    not follow -1. -/
def Reveals (n r w : Nat) : Prop :=
  Nat.Coprime w n ∧ ∃ rung, ladder n r w (rung + 1) = 1 ∧ (∀ earlier ≤ rung, ladder n r w earlier ≠ 1) ∧
    ladder n r w rung ≠ n - 1

variable {r w : Nat}

theorem ladder_zero (n r w : Nat) : ladder n r w 0 = powMod n w r := by
  rw [ladder, powMod_eq, Nat.pow_zero, Nat.one_mul]

theorem ladder_succ (n r w rung : Nat) : ladder n r w (rung + 1) = ladder n r w rung ^ 2 % n := by
  rw [ladder, ladder, ← Nat.pow_mod, ← Nat.pow_mul]
  congr 2
  ring

theorem ladder_lt (positive : 0 < n) (r w rung : Nat) : ladder n r w rung < n := Nat.mod_lt _ positive

/-- The ladder stays at 1. -/
theorem ladder_one (large : 1 < n) {rung later : Nat} (one : ladder n r w rung = 1) (le : rung ≤ later) :
    ladder n r w later = 1 := by
  induction later, le using Nat.le_induction with
  | base => exact one
  | succ later _ inductionHypothesis =>
    rw [ladder_succ, inductionHypothesis, Nat.one_pow, Nat.mod_eq_of_lt large]

/-- The square of -1 is 1. -/
theorem ladder_last (large : 2 < n) {rung : Nat} (last : ladder n r w rung = n - 1) :
    ladder n r w (rung + 1) = 1 := by
  obtain ⟨less, rfl⟩ : ∃ less, n = less + 2 := ⟨n - 2, by omega⟩
  rw [ladder_succ, last, show (less + 2 - 1) ^ 2 = 1 + (less + 2) * less by
    rw [show less + 2 - 1 = less + 1 by omega]; ring]
  rw [Nat.add_mul_mod_self_left, Nat.mod_eq_of_lt (by omega)]

/-- What reaches 1 is coprime to the modulus. -/
theorem coprime_of_ladder (odd : r % 2 = 1) {rung : Nat} (one : ladder n r w rung = 1) :
    Nat.Coprime w n := by
  have coprime : Nat.Coprime (w ^ (2 ^ rung * r)) n := by
    rw [Nat.Coprime, Nat.gcd_comm, Nat.gcd_rec, show w ^ (2 ^ rung * r) % n = 1 from one, Nat.gcd_one_left]
  have exponent : 0 < 2 ^ rung * r := Nat.mul_pos (Nat.two_pow_pos rung) (by omega)
  exact (Nat.coprime_pow_left_iff exponent w n).mp coprime

end SealedContent.Rsa
