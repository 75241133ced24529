import SealedContent.Proofs.Rsa.SquareRoots

/-! # The search for a factor

What the search along the ladder of one witness finds, and when it finds something: `factor?_splits` and
`factor?_isSome_iff_reveals`. `recover` succeeds where one of its witnesses does: `recover_eq_ok_iff`.
-/

namespace SealedContent.Rsa

variable {n e d t r w factor : Nat} {random : Randomness}

/-! ## The search along one ladder -/

/-- A proper factor that is coprime to the rest of the number. -/
structure Splits (n factor : Nat) : Prop where
  divides : factor ∣ n
  notOne : factor ≠ 1
  notAll : factor ≠ n
  coprime : Nat.Coprime factor (n / factor)

theorem squareRootFactor?_splits (odd : n % 2 = 1) {y : Nat} (found : squareRootFactor? n t y = some factor) :
    Splits n factor := by
  induction t generalizing y with
  | zero => cases found
  | succ t inductionHypothesis =>
    simp only [squareRootFactor?] at found
    split at found
    · next one =>
      split at found
      · next proper =>
        cases found
        rw [powMod_eq] at one
        exact ⟨Nat.gcd_dvd_right _ _, proper.1, proper.2, coprime_of_square odd one⟩
      · cases found
    · split at found
      · cases found
      · exact inductionHypothesis found

theorem factor?_splits (odd : n % 2 = 1) (found : factor? n t r w = some factor) : Splits n factor := by
  simp only [factor?] at found
  split at found
  · cases found
  · exact squareRootFactor?_splits odd found

/-- From a rung that is neither 1 nor -1 the search succeeds where the ladder reaches 1 in the squarings that
    are left, and not through -1. -/
theorem squareRootFactor?_isSome_iff (large : 2 < n) :
    ∀ {first : Nat}, ladder n r w first ≠ 1 → ladder n r w first ≠ n - 1 →
      ((squareRootFactor? n t (ladder n r w first)).isSome ↔
        ∃ rung, first ≤ rung ∧ rung < first + t ∧ ladder n r w (rung + 1) = 1 ∧ ladder n r w rung ≠ 1 ∧
          ladder n r w rung ≠ n - 1) := by
  induction t with
  | zero =>
    intro first _ _
    simp only [squareRootFactor?, Option.isSome_none, Bool.false_eq_true, false_iff]
    rintro ⟨rung, le, lt, -⟩
    omega
  | succ t inductionHypothesis =>
    intro first notOne notLast
    simp only [squareRootFactor?, powMod_eq]
    rw [← ladder_succ]
    by_cases one : ladder n r w (first + 1) = 1
    · have proper := proper_of_square (ladder_succ n r w first ▸ one) (ladder_lt (by omega) r w first) notOne notLast
      rw [if_pos one, if_pos proper]
      exact ⟨fun _ => ⟨first, Nat.le_refl _, by omega, one, notOne, notLast⟩, fun _ => rfl⟩
    · rw [if_neg one]
      by_cases last : ladder n r w (first + 1) = n - 1
      -- behind -1 every rung is 1
      · rw [if_pos last]
        have after := ladder_last large last
        constructor
        · exact fun none => nomatch none
        · rintro ⟨rung, le, -, reached, rungNotOne, rungNotLast⟩
          obtain rfl | rfl | later : rung = first ∨ rung = first + 1 ∨ first + 2 ≤ rung := by omega
          · exact absurd reached one
          · exact absurd last rungNotLast
          · exact absurd (ladder_one (by omega) after later) rungNotOne
      · rw [if_neg last, inductionHypothesis one last]
        constructor
        · rintro ⟨rung, le, lt, rest⟩
          exact ⟨rung, by omega, by omega, rest⟩
        · rintro ⟨rung, le, lt, reached, rest⟩
          have behind : rung ≠ first := fun same => one (same ▸ reached)
          exact ⟨rung, by omega, by omega, reached, rest⟩

theorem factor?_isSome_iff (large : 2 < n) :
    (factor? n t r w).isSome ↔ ∃ rung < t, ladder n r w (rung + 1) = 1 ∧ ladder n r w rung ≠ 1 ∧
      ladder n r w rung ≠ n - 1 := by
  simp only [factor?]
  rw [← ladder_zero]
  by_cases settled : ladder n r w 0 = 1 ∨ ladder n r w 0 = n - 1
  · rw [if_pos settled]
    constructor
    · exact fun none => nomatch none
    · rintro ⟨rung, -, -, notOne, notLast⟩
      obtain one | last := settled
      · exact absurd (ladder_one (by omega) one (Nat.zero_le _)) notOne
      · obtain rfl | later : rung = 0 ∨ 1 ≤ rung := by omega
        · exact absurd last notLast
        · exact absurd (ladder_one (by omega) (ladder_last large last) later) notOne
  · rw [if_neg settled, squareRootFactor?_isSome_iff large (fun one => settled (.inl one))
      fun last => settled (.inr last)]
    constructor
    · rintro ⟨rung, -, lt, rest⟩
      exact ⟨rung, by omega, rest⟩
    · rintro ⟨rung, lt, rest⟩
      exact ⟨rung, Nat.zero_le _, by omega, rest⟩

/-- Where the ladder of what is coprime to the modulus ends at 1, the search finds what the witness reveals. -/
theorem factor?_isSome_iff_reveals (large : 2 < n) (odd : r % 2 = 1)
    (ends : Nat.Coprime w n → ladder n r w t = 1) : (factor? n t r w).isSome ↔ Reveals n r w := by
  rw [factor?_isSome_iff large]
  constructor
  · rintro ⟨rung, -, one, notOne, notLast⟩
    refine ⟨coprime_of_ladder odd one, rung, one, fun earlier le reached => ?_, notLast⟩
    exact notOne (ladder_one (by omega) reached le)
  · rintro ⟨coprime, rung, one, first, notLast⟩
    have before : rung < t := Nat.lt_of_not_le fun le => first t le (ends coprime)
    exact ⟨rung, before, one, first rung (Nat.le_refl _), notLast⟩

/-! ## Keys from a factor -/

theorem Splits.key_factors (splits : Splits n factor) (positive : 0 < n) (e d : Nat) :
    (PrivateKey.ofFactor n e d factor).p * (PrivateKey.ofFactor n e d factor).q = n ∧
      1 < (PrivateKey.ofFactor n e d factor).q ∧
      (PrivateKey.ofFactor n e d factor).q < (PrivateKey.ofFactor n e d factor).p ∧
      Nat.gcd (PrivateKey.ofFactor n e d factor).p (PrivateKey.ofFactor n e d factor).q = 1 := by
  have product : factor * (n / factor) = n := Nat.mul_div_cancel' splits.divides
  have coprime := splits.coprime
  simp only [PrivateKey.ofFactor]
  generalize n / factor = other at *
  have factorLarge : 1 < factor := by
    have notZero : factor ≠ 0 := fun zero => by rw [zero, Nat.zero_mul] at product; omega
    have := splits.notOne
    omega
  have otherLarge : 1 < other := by
    have notZero : other ≠ 0 := fun zero => by rw [zero, Nat.mul_zero] at product; omega
    have notOne : other ≠ 1 := fun one => splits.notAll (by rw [one, Nat.mul_one] at product; exact product)
    omega
  have different : factor ≠ other := fun same => by
    rw [same, Nat.Coprime, Nat.gcd_self] at coprime
    omega
  obtain less | less := Nat.lt_or_gt_of_ne different
  · rw [Nat.max_eq_right (Nat.le_of_lt less), Nat.min_eq_left (Nat.le_of_lt less)]
    exact ⟨by rw [Nat.mul_comm, product], factorLarge, less, (Nat.gcd_comm _ _).trans coprime⟩
  · rw [Nat.max_eq_left (Nat.le_of_lt less), Nat.min_eq_right (Nat.le_of_lt less)]
    exact ⟨product, otherLarge, less, coprime⟩

/-! ## All witnesses -/

/-- The numbers with which a search begins. -/
structure Searchable (n e d : Nat) : Prop where
  large : 3 < n
  odd : n % 2 = 1
  exponent : 1 < e
  secret : 1 < d
  even : (e * d - 1) % 2 = 0

/-- The factor that the first witness with one reveals. -/
def foundFactor? (n e d : Nat) (random : Randomness) : Option Nat :=
  (List.range maxWitnesses).findSome? fun i =>
    factor? n (splitTwos (e * d - 1)).1 (splitTwos (e * d - 1)).2 (witness n random i)

theorem foundFactor?_splits (odd : n % 2 = 1) (found : foundFactor? n e d random = some factor) :
    Splits n factor := by
  obtain ⟨i, -, revealed⟩ := List.exists_of_findSome?_eq_some found
  exact factor?_splits odd revealed

variable {modulus exponent secret : Bytes}

theorem recover_found (searchable : Searchable (BigEndian.decode modulus) (BigEndian.decode exponent)
      (BigEndian.decode secret)) :
    recover modulus exponent secret random = match foundFactor? (BigEndian.decode modulus)
        (BigEndian.decode exponent) (BigEndian.decode secret) random with
      | some factor => (.ok (.ofFactor (BigEndian.decode modulus) (BigEndian.decode exponent)
          (BigEndian.decode secret) factor), [])
      | none => (.error .factorization, [.recoveryGaveUp maxWitnesses]) := by
  obtain ⟨large, odd, exponentLarge, secretLarge, even⟩ := searchable
  exact (if_neg (by omega)).trans (if_neg (by omega))

theorem recover_eq_ok_iff {key : PrivateKey} {warnings : List Warning} :
    recover modulus exponent secret random = (.ok key, warnings) ↔
      Searchable (BigEndian.decode modulus) (BigEndian.decode exponent) (BigEndian.decode secret) ∧
      warnings = [] ∧ ∃ factor, foundFactor? (BigEndian.decode modulus) (BigEndian.decode exponent)
        (BigEndian.decode secret) random = some factor ∧
        key = .ofFactor (BigEndian.decode modulus) (BigEndian.decode exponent) (BigEndian.decode secret) factor := by
  constructor
  · intro gives
    have searchable : Searchable (BigEndian.decode modulus) (BigEndian.decode exponent)
        (BigEndian.decode secret) := by
      simp only [recover] at gives
      split at gives
      · cases gives
      · split at gives
        · cases gives
        · exact ⟨by omega, by omega, by omega, by omega, by omega⟩
    rw [recover_found searchable] at gives
    split at gives
    · next factor found =>
      cases gives
      exact ⟨searchable, rfl, factor, found, rfl⟩
    · cases gives
  · rintro ⟨searchable, rfl, factor, found, rfl⟩
    rw [recover_found searchable, found]

/-- Without a factor the recovery gives up. -/
theorem recover_gaveUp (searchable : Searchable (BigEndian.decode modulus) (BigEndian.decode exponent)
      (BigEndian.decode secret))
    (none : foundFactor? (BigEndian.decode modulus) (BigEndian.decode exponent) (BigEndian.decode secret) random =
      none) :
    recover modulus exponent secret random = (.error .factorization, [.recoveryGaveUp maxWitnesses]) := by
  rw [recover_found searchable, none]

end SealedContent.Rsa
