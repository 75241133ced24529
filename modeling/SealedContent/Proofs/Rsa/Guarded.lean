import SealedContent.Proofs.Rsa.Search

/-! # Recovery with guarded arithmetic

Subtraction of natural numbers stops at zero and a remainder by zero is defined. `guardedRecover?` is the
recovery of a key with operations that fail there instead. None of them ever fails: `guardedRecover?_eq`.
-/

namespace SealedContent.Rsa

/-! ## Operations -/

/-- The difference, unless it is below zero. -/
def sub? (a b : Nat) : Option Nat := if b ≤ a then some (a - b) else none

/-- The remainder, unless the divisor is zero. -/
def rem? (a b : Nat) : Option Nat := if b = 0 then none else some (a % b)

theorem sub?_eq {a b : Nat} (le : b ≤ a) : sub? a b = some (a - b) := if_pos le

theorem rem?_eq (a : Nat) {b : Nat} (positive : 0 < b) : rem? a b = some (a % b) := if_neg (by omega)

/-! ## The recovery -/

def guardedWitness? (n : Nat) (random : Randomness) (number : Nat) : Option Nat := do
  let length := (BigEndian.minimal n).length
  let bytes := (List.range length).map fun i => random (number * length + i)
  return (← rem? (BigEndian.decode bytes) (← sub? n 3)) + 2

def guardedRootFactor? (n : Nat) : (t y : Nat) → Option (Option Nat)
  | 0, _ => return none
  | t + 1, y => do
    let x := powMod n y 2
    if x = 1 then
      let p := Nat.gcd (← sub? y 1) n
      return if p ≠ 1 ∧ p ≠ n then some p else none
    else if x = (← sub? n 1) then return none
    else guardedRootFactor? n t x

def guardedFactor? (n t r w : Nat) : Option (Option Nat) := do
  let y := powMod n w r
  if y = 1 ∨ y = (← sub? n 1) then return none else guardedRootFactor? n t y

def guardedKey? (n e d factor : Nat) : Option PrivateKey := do
  let other := n / factor
  let p := max factor other
  let q := min factor other
  let dp ← rem? d (← sub? p 1)
  let dq ← rem? d (← sub? q 1)
  return { n, e, d, p, q, dp, dq, qInv := powMod p q (← sub? p 2) }

/-- The recovery of a key, or nothing where an operation on the way is not defined. -/
def guardedRecover? (n e d : Bytes) (random : Randomness) : Option (Except Error PrivateKey × List Warning) := do
  let n := BigEndian.decode n
  let e := BigEndian.decode e
  let d := BigEndian.decode d
  if n ≤ 3 ∨ n % 2 = 0 ∨ e ≤ 1 ∨ d ≤ 1 then return (.error (.crypto .rsaRange), [])
  else
    let k ← sub? (e * d) 1
    if k % 2 = 1 then return (.error .factorization, [])
    else
      let (t, r) := splitTwos k
      let found ← (List.range maxWitnesses).findSomeM? fun i => do
        guardedFactor? n t r (← guardedWitness? n random i)
      match found with
      | some factor => return (.ok (← guardedKey? n e d factor), [])
      | none => return (.error .factorization, [.recoveryGaveUp maxWitnesses])

/-! ## Every operation is defined -/

variable {n : Nat}

theorem guardedWitness?_eq (large : 3 < n) (random : Randomness) (number : Nat) :
    guardedWitness? n random number = some (witness n random number) := by
  simp only [guardedWitness?, sub?_eq (show 3 ≤ n by omega), rem?_eq _ (show 0 < n - 3 by omega), Option.bind_eq_bind,
    Option.bind_some, Option.pure_def, witness]

theorem guardedRootFactor?_eq (large : 3 < n) (t : Nat) :
    ∀ y, guardedRootFactor? n t y = some (squareRootFactor? n t y) := by
  induction t with
  | zero => exact fun _ => rfl
  | succ t inductionHypothesis =>
    intro y
    simp only [guardedRootFactor?, squareRootFactor?]
    by_cases one : powMod n y 2 = 1
    · -- zero is no square root of 1
      have positive : 1 ≤ y := pos_of_square (powMod_eq n y 2 ▸ one)
      rw [if_pos one, if_pos one, sub?_eq positive]
      rfl
    · rw [if_neg one, if_neg one, sub?_eq (show 1 ≤ n by omega)]
      simp only [Option.bind_eq_bind, Option.bind_some]
      by_cases last : powMod n y 2 = n - 1
      · rw [if_pos last, if_pos last]
        rfl
      · rw [if_neg last, if_neg last]
        exact inductionHypothesis _

theorem guardedFactor?_eq (large : 3 < n) (t r w : Nat) : guardedFactor? n t r w = some (factor? n t r w) := by
  simp only [guardedFactor?, factor?, sub?_eq (show 1 ≤ n by omega), Option.bind_eq_bind, Option.bind_some]
  by_cases settled : powMod n w r = 1 ∨ powMod n w r = n - 1
  · rw [if_pos settled, if_pos settled]
    rfl
  · rw [if_neg settled, if_neg settled]
    exact guardedRootFactor?_eq large t _

theorem guardedKey?_eq {factor : Nat} (splits : Splits n factor) (positive : 0 < n) (e d : Nat) :
    guardedKey? n e d factor = some (.ofFactor n e d factor) := by
  obtain ⟨-, less, ordered, -⟩ := splits.key_factors positive e d
  simp only [PrivateKey.ofFactor] at less ordered
  simp only [guardedKey?]
  rw [sub?_eq (by omega), sub?_eq (by omega), sub?_eq (by omega)]
  simp only [Option.bind_eq_bind, Option.bind_some]
  rw [rem?_eq _ (by omega), rem?_eq _ (by omega)]
  rfl

theorem findSomeM?_some {α β : Type} {f : α → Option (Option β)} {g : α → Option β}
    (same : ∀ item, f item = some (g item)) (items : List α) : items.findSomeM? f = some (items.findSome? g) := by
  induction items with
  | nil => rfl
  | cons item rest inductionHypothesis =>
    rw [List.findSomeM?_cons, same, List.findSome?_cons]
    cases g item with
    | some value => rfl
    | none => exact inductionHypothesis

/-- The recovery never subtracts below zero and never divides by it. -/
theorem guardedRecover?_eq (n e d : Bytes) (random : Randomness) :
    guardedRecover? n e d random = some (recover n e d random) := by
  simp only [guardedRecover?, recover]
  by_cases range : BigEndian.decode n ≤ 3 ∨ BigEndian.decode n % 2 = 0 ∨ BigEndian.decode e ≤ 1 ∨
      BigEndian.decode d ≤ 1
  · rw [if_pos range, if_pos range]
    rfl
  · have product : 1 ≤ BigEndian.decode e * BigEndian.decode d := Nat.mul_pos (by omega) (by omega)
    rw [if_neg range, if_neg range, sub?_eq product]
    simp only [Option.bind_eq_bind, Option.bind_some]
    by_cases odd : (BigEndian.decode e * BigEndian.decode d - 1) % 2 = 1
    · rw [if_pos odd, if_pos odd]
      rfl
    · have each := fun i => guardedFactor?_eq (show 3 < BigEndian.decode n by omega)
        (splitTwos (BigEndian.decode e * BigEndian.decode d - 1)).1
        (splitTwos (BigEndian.decode e * BigEndian.decode d - 1)).2 (witness (BigEndian.decode n) random i)
      rw [if_neg odd, if_neg odd]
      simp only [guardedWitness?_eq (show 3 < BigEndian.decode n by omega), Option.bind_some]
      rw [findSomeM?_some each, Option.bind_some]
      cases found : (List.range maxWitnesses).findSome? _ with
      | some factor =>
        have splits : Splits (BigEndian.decode n) factor := foundFactor?_splits (by omega) found
        dsimp only
        rw [guardedKey?_eq splits (by omega)]
        rfl
      | none => rfl

end SealedContent.Rsa
