import Mathlib.Tactic.NormNum.Prime
import SealedContent.Proofs.Rsa.Guarded

/-! # Recovery of private keys

Whatever numbers it is given, `recover` gives coprime factors of the modulus or fails. If the modulus is the
product of two odd primes and the exponents undo each other, it gives the primes and all parameters of the key
as soon as one of its witnesses `Reveals` them: `recover_parameters`.
-/

namespace SealedContent.Rsa

/-! ## Keys -/

namespace PrivateKey

/-- The factors split the modulus, the larger one first, and the short exponents are those of the factors. -/
structure Factored (key : PrivateKey) : Prop where
  product : key.p * key.q = key.n
  proper : 1 < key.q
  ordered : key.q < key.p
  coprime : Nat.gcd key.p key.q = 1
  dp : key.dp = key.d % (key.p - 1)
  dq : key.dq = key.d % (key.q - 1)

/-- What the Chinese remainder theorem needs: inverses modulo the first factor and both of them less one. -/
structure Inverts (key : PrivateKey) : Prop where
  qInv : key.q * key.qInv ≡ 1 [MOD key.p]
  dp : key.e * key.dp ≡ 1 [MOD key.p - 1]
  dq : key.e * key.dq ≡ 1 [MOD key.q - 1]

end PrivateKey

/-- A modulus of two odd primes, with exponents that undo each other. -/
structure Genuine (p q n e d : Nat) : Prop where
  firstPrime : p.Prime
  secondPrime : q.Prime
  firstOdd : p % 2 = 1
  secondOdd : q % 2 = 1
  different : p ≠ q
  product : n = p * q
  exponent : 1 < e
  secret : 1 < d
  undo : Nat.lcm (p - 1) (q - 1) ∣ e * d - 1

variable {p q n e d t r w : Nat}

/-! ## Arithmetic of two primes -/

/-- A factor that one of two primes divides is that prime, if the other factor is proper. -/
theorem factor_of_dvd {first second : Nat} (firstPrime : p.Prime) (secondPrime : q.Prime)
    (product : first * second = p * q) (proper : 1 < second) (divides : p ∣ first) : first = p ∧ second = q := by
  obtain ⟨rest, rfl⟩ := divides
  rw [Nat.mul_assoc] at product
  have remaining : rest * second = q := Nat.eq_of_mul_eq_mul_left firstPrime.pos product
  obtain one | all := (Nat.dvd_prime secondPrime).mp (Dvd.intro_left rest remaining)
  · omega
  · rw [all] at remaining
    have one : rest = 1 := Nat.eq_of_mul_eq_mul_right secondPrime.pos (remaining.trans (Nat.one_mul q).symm)
    exact ⟨by rw [one, Nat.mul_one], all⟩

/-- Two primes are the only proper factors of their product. -/
theorem factors_of_primes {first second : Nat} (firstPrime : p.Prime) (secondPrime : q.Prime)
    (product : first * second = p * q) (firstProper : 1 < first) (secondProper : 1 < second) :
    (first = p ∧ second = q) ∨ (first = q ∧ second = p) := by
  obtain divides | divides := (Nat.Prime.dvd_mul firstPrime).mp ⟨q, product⟩
  · exact .inl (factor_of_dvd firstPrime secondPrime product secondProper divides)
  · rw [Nat.mul_comm] at product
    exact .inr (factor_of_dvd firstPrime secondPrime product firstProper divides).symm

/-- A power of a number is its inverse modulo a prime. -/
theorem powMod_inverse {a : Nat} (prime : p.Prime) (coprime : Nat.Coprime a p) :
    a * powMod p a (p - 2) ≡ 1 [MOD p] := by
  have two := prime.two_le
  calc a * powMod p a (p - 2) = a * (a ^ (p - 2) % p) := by rw [powMod_eq]
    _ ≡ a * a ^ (p - 2) [MOD p] := Nat.ModEq.mul_left a (Nat.mod_modEq _ p)
    _ = a ^ Nat.totient p := by rw [← Nat.pow_succ', Nat.totient_prime prime]; congr 1; omega
    _ ≡ 1 [MOD p] := Nat.ModEq.pow_totient coprime

theorem undo_mod {m : Nat} (exponent : 1 < e) (secret : 1 < d) (undo : m ∣ e * d - 1) :
    e * (d % m) ≡ 1 [MOD m] := by
  have product : 1 ≤ e * d := Nat.mul_pos (by omega) (by omega)
  calc e * (d % m) ≡ e * d [MOD m] := Nat.ModEq.mul_left e (Nat.mod_modEq d m)
    _ ≡ 1 [MOD m] := ((Nat.modEq_iff_dvd' product).mpr undo).symm

namespace Genuine

theorem searchable (genuine : Genuine p q n e d) : Searchable n e d := by
  obtain ⟨firstPrime, secondPrime, firstOdd, secondOdd, -, rfl, exponent, secret, undo⟩ := genuine
  have firstLarge := firstPrime.two_le
  have secondLarge := secondPrime.two_le
  have large : 3 * 3 ≤ p * q := Nat.mul_le_mul (by omega) (by omega)
  have even : 2 ∣ e * d - 1 :=
    ((show 2 ∣ p - 1 by omega).trans (Nat.dvd_lcm_left _ _)).trans undo
  exact ⟨by omega, by rw [Nat.mul_mod, firstOdd, secondOdd], exponent, secret, by omega⟩

/-- Every ladder of a unit ends at 1. -/
theorem ladder_ends (genuine : Genuine p q n e d) (split : e * d - 1 = 2 ^ t * r) (coprime : Nat.Coprime w n) :
    ladder n r w t = 1 := by
  have searchable := genuine.searchable
  obtain ⟨firstPrime, secondPrime, -, -, different, rfl, -, -, undo⟩ := genuine
  have modulo : ∀ {prime : Nat}, prime.Prime → prime ∣ p * q → prime - 1 ∣ e * d - 1 →
      w ^ (e * d - 1) ≡ 1 [MOD prime] := by
    rintro prime isPrime divides ⟨rounds, same⟩
    have fermat := Nat.ModEq.pow_totient (coprime.coprime_dvd_right divides)
    rw [Nat.totient_prime isPrime] at fermat
    have raised := fermat.pow rounds
    rwa [← Nat.pow_mul, ← same, Nat.one_pow] at raised
  have both : w ^ (e * d - 1) ≡ 1 [MOD p * q] :=
    (Nat.modEq_and_modEq_iff_modEq_mul ((Nat.coprime_primes firstPrime secondPrime).mpr different)).mp
      ⟨modulo firstPrime (Nat.dvd_mul_right p q) ((Nat.dvd_lcm_left _ _).trans undo),
        modulo secondPrime (Nat.dvd_mul_left q p) ((Nat.dvd_lcm_right _ _).trans undo)⟩
  have large := searchable.large
  rw [ladder, ← split, both, Nat.mod_eq_of_lt (by omega)]

end Genuine

/-- A number is a power of two times an odd number in one way. -/
theorem splitTwos_unique (odd : r % 2 = 1) : splitTwos (2 ^ t * r) = (t, r) := by
  induction t with
  | zero =>
    rw [splitTwos, dif_neg (by omega), Nat.pow_zero, Nat.one_mul]
  | succ t inductionHypothesis =>
    have half : 2 ^ (t + 1) * r = 2 * (2 ^ t * r) := by rw [Nat.pow_succ, Nat.mul_comm (2 ^ t), Nat.mul_assoc]
    have positive : 0 < 2 ^ t * r := Nat.mul_pos (Nat.two_pow_pos t) (by omega)
    rw [half, splitTwos, dif_pos (by omega), Nat.mul_div_cancel_left _ (by omega), inductionHypothesis]

/-! ## What is recovered -/

variable {modulus exponent secret : Bytes} {random : Randomness} {key : PrivateKey} {warnings : List Warning}

theorem recover_factored (gives : recover modulus exponent secret random = (.ok key, warnings)) :
    key.n = BigEndian.decode modulus ∧ key.e = BigEndian.decode exponent ∧ key.d = BigEndian.decode secret ∧
      key.Factored := by
  obtain ⟨searchable, -, factor, found, rfl⟩ := recover_eq_ok_iff.mp gives
  have large := searchable.large
  obtain ⟨product, proper, ordered, coprime⟩ := (foundFactor?_splits searchable.odd found).key_factors
    (by omega) (BigEndian.decode exponent) (BigEndian.decode secret)
  exact ⟨rfl, rfl, rfl, product, proper, ordered, coprime, rfl, rfl⟩

/-- The factors are the primes, the larger one first. -/
theorem PrivateKey.Factored.primes (factored : key.Factored) (genuine : Genuine p q key.n key.e key.d) :
    (key.p = p ∧ key.q = q) ∨ (key.p = q ∧ key.q = p) :=
  factors_of_primes genuine.firstPrime genuine.secondPrime (factored.product.trans genuine.product)
    (Nat.lt_trans factored.proper factored.ordered) factored.proper

theorem recover_inverts (gives : recover modulus exponent secret random = (.ok key, warnings))
    (genuine : Genuine p q (BigEndian.decode modulus) (BigEndian.decode exponent) (BigEndian.decode secret)) :
    ((key.p = p ∧ key.q = q) ∨ (key.p = q ∧ key.q = p)) ∧ key.Inverts := by
  obtain ⟨sameN, sameE, sameD, factored⟩ := recover_factored gives
  rw [← sameN, ← sameE, ← sameD] at genuine
  have primes := factored.primes genuine
  have firstPrime : key.p.Prime := by
    obtain ⟨same, -⟩ | ⟨same, -⟩ := primes
    · exact same ▸ genuine.firstPrime
    · exact same ▸ genuine.secondPrime
  have undo : key.p - 1 ∣ key.e * key.d - 1 ∧ key.q - 1 ∣ key.e * key.d - 1 := by
    have left := (Nat.dvd_lcm_left (p - 1) (q - 1)).trans genuine.undo
    have right := (Nat.dvd_lcm_right (p - 1) (q - 1)).trans genuine.undo
    obtain ⟨samep, sameq⟩ | ⟨samep, sameq⟩ := primes
    · rw [samep, sameq]; exact ⟨left, right⟩
    · rw [samep, sameq]; exact ⟨right, left⟩
  refine ⟨primes, ?_, ?_, ?_⟩
  · obtain ⟨-, -, factor, -, rfl⟩ := recover_eq_ok_iff.mp gives
    exact powMod_inverse firstPrime (Nat.Coprime.symm factored.coprime)
  · rw [factored.dp]
    exact undo_mod genuine.exponent genuine.secret undo.1
  · rw [factored.dq]
    exact undo_mod genuine.exponent genuine.secret undo.2

/-- Other random bytes give the same key. -/
theorem recover_unique {other : Randomness} {otherKey : PrivateKey} {otherWarnings : List Warning}
    (gives : recover modulus exponent secret random = (.ok key, warnings))
    (givesOther : recover modulus exponent secret other = (.ok otherKey, otherWarnings))
    (genuine : Genuine p q (BigEndian.decode modulus) (BigEndian.decode exponent) (BigEndian.decode secret)) :
    key = otherKey := by
  have ordered := (recover_factored gives).2.2.2.ordered
  have otherOrdered := (recover_factored givesOther).2.2.2.ordered
  have primes := (recover_inverts gives genuine).1
  have otherPrimes := (recover_inverts givesOther genuine).1
  obtain ⟨-, -, factor, -, rfl⟩ := recover_eq_ok_iff.mp gives
  obtain ⟨-, -, otherFactor, -, rfl⟩ := recover_eq_ok_iff.mp givesOther
  -- all other parameters are computed from the two factors
  have factors : max factor (BigEndian.decode modulus / factor) =
        max otherFactor (BigEndian.decode modulus / otherFactor) ∧
      min factor (BigEndian.decode modulus / factor) = min otherFactor (BigEndian.decode modulus / otherFactor) := by
    simp only [PrivateKey.ofFactor] at ordered otherOrdered primes otherPrimes
    omega
  simp only [PrivateKey.ofFactor]
  rw [factors.1, factors.2]

theorem foundFactor?_isSome_iff (genuine : Genuine p q n e d) (split : e * d - 1 = 2 ^ t * r) (odd : r % 2 = 1) :
    (foundFactor? n e d random).isSome ↔ ∃ i < maxWitnesses, Reveals n r (witness n random i) := by
  have large := genuine.searchable.large
  simp only [foundFactor?, split, splitTwos_unique odd, List.findSome?_isSome_iff, List.mem_range]
  exact exists_congr fun i => and_congr_right fun _ =>
    factor?_isSome_iff_reveals (by omega) odd (genuine.ladder_ends split)

/-- The recovery of a key is defined for all bytes. What it gives splits the modulus. Of a genuine key it gives
    the two primes and all inverses, the same with any random bytes, and it succeeds exactly when one of its
    witnesses reveals the factors. -/
theorem recover_parameters (modulus exponent secret : Bytes) (random : Randomness) :
    guardedRecover? modulus exponent secret random = some (recover modulus exponent secret random) ∧
    (∀ key warnings, recover modulus exponent secret random = (.ok key, warnings) →
      key.n = BigEndian.decode modulus ∧ key.e = BigEndian.decode exponent ∧ key.d = BigEndian.decode secret ∧
        key.Factored) ∧
    ∀ p q, Genuine p q (BigEndian.decode modulus) (BigEndian.decode exponent) (BigEndian.decode secret) →
      (∀ key warnings, recover modulus exponent secret random = (.ok key, warnings) →
        ((key.p = p ∧ key.q = q) ∨ (key.p = q ∧ key.q = p)) ∧ key.Inverts) ∧
      (∀ other key otherKey warnings otherWarnings, recover modulus exponent secret random = (.ok key, warnings) →
        recover modulus exponent secret other = (.ok otherKey, otherWarnings) → key = otherKey) ∧
      ∀ t r, BigEndian.decode exponent * BigEndian.decode secret - 1 = 2 ^ t * r → r % 2 = 1 →
        ((∃ key, recover modulus exponent secret random = (.ok key, [])) ↔
          ∃ i < maxWitnesses, Reveals (BigEndian.decode modulus) r (witness (BigEndian.decode modulus) random i)) ∧
        ((∃ key, recover modulus exponent secret random = (.ok key, [])) ∨
          recover modulus exponent secret random = (.error .factorization, [.recoveryGaveUp maxWitnesses])) := by
  refine ⟨guardedRecover?_eq modulus exponent secret random, fun _ _ => recover_factored, fun p q genuine => ?_⟩
  refine ⟨fun _ _ gives => recover_inverts gives genuine,
    fun _ _ _ _ _ gives givesOther => recover_unique gives givesOther genuine, fun t r split odd => ?_⟩
  rw [← foundFactor?_isSome_iff genuine split odd]
  cases found : foundFactor? (BigEndian.decode modulus) (BigEndian.decode exponent) (BigEndian.decode secret)
    random with
  | none =>
    have failed := recover_gaveUp genuine.searchable found
    refine ⟨⟨fun ⟨key, gives⟩ => ?_, fun none => nomatch none⟩, .inr failed⟩
    rw [failed] at gives
    cases gives
  | some factor =>
    have gives := recover_eq_ok_iff.mpr ⟨genuine.searchable, rfl, factor, found, rfl⟩
    exact ⟨⟨fun _ => rfl, fun _ => ⟨_, gives⟩⟩, .inl ⟨_, gives⟩⟩

/-- The modulus 11 * 23 with the exponents 3 and 37. The first witness is 2. -/
theorem recover_parameters_small :
    Genuine 11 23 (BigEndian.decode [253]) (BigEndian.decode [3]) (BigEndian.decode [37]) ∧
    BigEndian.decode [3] * BigEndian.decode [37] - 1 = 2 ^ 1 * 55 ∧ 55 % 2 = 1 ∧
    ∃ key, recover [253] [3] [37] (fun _ => 0) = (.ok key, []) ∧ key.p = 23 ∧ key.q = 11 ∧ key.dp = 15 ∧
      key.dq = 7 ∧ key.Inverts := by
  have genuine : Genuine 11 23 (BigEndian.decode [253]) (BigEndian.decode [3]) (BigEndian.decode [37]) := by
    refine ⟨by norm_num, by norm_num, rfl, rfl, by decide, rfl, by decide, by decide, by decide⟩
  have split : BigEndian.decode [3] * BigEndian.decode [37] - 1 = 2 ^ 1 * 55 := rfl
  obtain ⟨-, factored, laws⟩ := recover_parameters [253] [3] [37] fun _ => 0
  obtain ⟨inverts, -, succeeds⟩ := laws 11 23 genuine
  have revealed : Reveals (BigEndian.decode [253]) 55 (witness (BigEndian.decode [253]) (fun _ => 0) 0) := by
    refine ⟨by decide, 0, by decide, ?_, by decide⟩
    intro earlier le
    obtain rfl : earlier = 0 := by omega
    decide
  obtain ⟨key, gives⟩ := (succeeds 1 55 split rfl).1.mpr ⟨0, by decide, revealed⟩
  obtain ⟨-, -, sameD, split'⟩ := factored key [] gives
  obtain ⟨primes, inverse⟩ := inverts key [] gives
  have ordered := split'.ordered
  obtain ⟨first, second⟩ : key.p = 23 ∧ key.q = 11 := by omega
  have dp := split'.dp
  have dq := split'.dq
  rw [sameD, first] at dp
  rw [sameD, second] at dq
  exact ⟨genuine, split, rfl, key, gives, first, second, dp, dq, inverse⟩

end SealedContent.Rsa
