import SealedContent.Bytes

/-! # Media units

Headers of containers and cards address their contents in units of `0x200` bytes:

* `mediaBytes` — where a unit starts.
* `UnitRange` — a range of units; a range that starts at unit zero is absent.
-/

namespace SealedContent

def mediaUnit : Nat := 0x200

def mediaBytes (units : Nat) : Nat := units * mediaUnit

/-- A range of media units, from the first one up to the one behind the last. -/
structure UnitRange where
  first : Nat
  last : Nat
deriving DecidableEq, Repr, Inhabited

namespace UnitRange

/-- The header lies at unit zero, so nothing else starts there. -/
def isPresent (range : UnitRange) : Bool := range.first != 0

def start (range : UnitRange) : Nat := mediaBytes range.first

def stop (range : UnitRange) : Nat := mediaBytes range.last

/-- The number of bytes of the range; a reversed range has none. -/
def size (range : UnitRange) : Nat := range.stop - range.start

theorem start_add_size {range : UnitRange} (h : range.first ≤ range.last) :
    range.start + range.size = range.stop := by
  have : range.start ≤ range.stop := Nat.mul_le_mul_right _ h
  simp only [size]; omega

end UnitRange

end SealedContent
