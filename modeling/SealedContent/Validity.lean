/-! # Verdicts and policies

`Validity` is the outcome of a signature or hash check, `Validity.merge` the outcome of two checks
together. `Policy` says what a read does with a block that fails its check.

Merging is commutative and associative, valid results are neutral, and an invalid one dominates.
-/

namespace SealedContent

/-- The outcome of a signature or hash check. -/
inductive Validity where
  /-- Nothing has been checked. -/
  | unchecked
  /-- The check passed. -/
  | valid
  /-- The check failed. -/
  | invalid
  /-- The key that the check needs is unknown. -/
  | missingKey
deriving DecidableEq, Repr, Inhabited

namespace Validity

/-- How much an outcome outweighs others when results are merged. -/
def weight : Validity → Nat
  | valid => 0
  | unchecked => 1
  | missingKey => 2
  | invalid => 3

/-- The outcome of two checks together: the weightier of the two. -/
def merge (a b : Validity) : Validity := if a.weight < b.weight then b else a

/-- The verdict kept for a block after a new check of it; a failure is never taken back. -/
def record (kept new : Validity) : Validity := if kept = invalid then invalid else new

def name : Validity → String
  | unchecked => "Unchecked"
  | valid => "Valid"
  | invalid => "Invalid"
  | missingKey => "MissingKey"

/-- A check that passes exactly if the condition holds. -/
def ofBool (passed : Bool) : Validity := if passed then valid else invalid

theorem merge_assoc (a b c : Validity) : merge (merge a b) c = merge a (merge b c) := by
  cases a <;> cases b <;> cases c <;> rfl

@[simp] theorem valid_merge (a : Validity) : merge valid a = a := by cases a <;> rfl

@[simp] theorem merge_valid (a : Validity) : merge a valid = a := by cases a <;> rfl

/-- The outcome of several checks together. -/
def mergeAll (outcomes : List Validity) : Validity := outcomes.foldl merge valid

end Validity

/-- What a read does with a block that fails verification. -/
inductive Policy where
  /-- Nothing is hashed. -/
  | off
  /-- A warning is logged and the bytes are returned. -/
  | warn
  /-- The read fails. -/
  | fail
  /-- The bytes are returned; the verdict is still recorded. -/
  | ignore
deriving DecidableEq, Repr, Inhabited

end SealedContent
