/-! # Byte strings

The values that storages, ciphers and parsers hand to one another:

* `Bytes` — a finite string of bytes, `zeros`, `isZero`, `ofAscii`.
* `window` — the bytes of a range, cut at the end of the string.
* `zeroExtend`, `aligned`, `xor`, `chunks` — the shapes that hashes, tables and block ciphers need.
-/

namespace SealedContent

/-- A finite string of bytes. -/
abbrev Bytes := List UInt8

namespace Bytes

/-! ## Zeros -/

def zeros (n : Nat) : Bytes := List.replicate n 0

/-- Every byte is zero. The empty string counts. -/
def isZero (bytes : Bytes) : Bool := bytes.all (· == 0)

/-- `bytes` followed by zeros up to `size` bytes; a longer string is kept. -/
def zeroExtend (size : Nat) (bytes : Bytes) : Bytes := bytes ++ zeros (size - bytes.length)

/-- The zeros missing from `size` to a multiple of `unit`. -/
def padding (unit size : Nat) : Nat := (unit - size % unit) % unit

/-- `bytes` followed by zeros up to a multiple of `unit`. -/
def aligned (unit : Nat) (bytes : Bytes) : Bytes := bytes ++ zeros (padding unit bytes.length)

/-- The bytes of a text of ASCII characters. -/
def ofAscii (text : String) : Bytes := text.toList.map fun c => UInt8.ofNat c.toNat

@[simp] theorem length_zeros (n : Nat) : (zeros n).length = n := by simp [zeros]

theorem isZero_iff {bytes : Bytes} : bytes.isZero = true ↔ ∀ b ∈ bytes, b = 0 := by
  simp [isZero]

theorem dvd_add_padding {unit : Nat} (hunit : 0 < unit) (size : Nat) :
    unit ∣ size + padding unit size := by
  have hlt : size % unit < unit := Nat.mod_lt _ hunit
  have hsum := Nat.div_add_mod size unit
  apply Nat.dvd_of_mod_eq_zero
  rw [padding, Nat.add_mod_mod, show size + (unit - size % unit) = unit * (size / unit) + unit by omega,
    Nat.add_mod_right, Nat.mul_mod_right]

/-! ## Ranges -/

/-- The `length` bytes at `offset`, or those of them that exist. -/
def window (bytes : Bytes) (offset length : Nat) : Bytes := (bytes.drop offset).take length

/-- The window when all of it exists. -/
def window? (bytes : Bytes) (offset length : Nat) : Option Bytes :=
  if offset + length ≤ bytes.length then some (bytes.window offset length) else none

theorem length_window {bytes : Bytes} {offset length : Nat} (h : offset + length ≤ bytes.length) :
    (bytes.window offset length).length = length := by
  simp [window]; omega

theorem getElem?_window {bytes : Bytes} {offset length i : Nat} (h : i < length) :
    (bytes.window offset length)[i]? = bytes[offset + i]? := by
  simp [window, h, List.getElem?_drop]

/-! ## Combination -/

/-- Bytewise exclusive or, as long as the shorter string. -/
def xor (a b : Bytes) : Bytes := List.zipWith (· ^^^ ·) a b

@[simp] theorem length_xor (a b : Bytes) : (xor a b).length = min a.length b.length := by
  simp [xor]

/-- `bytes` cut into pieces of `size` bytes; the last piece may be short. Nothing is cut when `size`
    is zero. -/
def chunks (size : Nat) (bytes : Bytes) : List Bytes :=
  if _h : size = 0 ∨ bytes = [] then [] else bytes.take size :: chunks size (bytes.drop size)
termination_by bytes.length
decreasing_by
  have : bytes.length ≠ 0 := fun h0 => _h (Or.inr (List.length_eq_zero_iff.mp h0))
  simp only [List.length_drop]; omega

@[simp] theorem chunks_nil (size : Nat) : chunks size [] = [] := by
  rw [chunks]; simp

theorem flatten_chunks {size : Nat} (hsize : size ≠ 0) (bytes : Bytes) :
    (chunks size bytes).flatten = bytes := by
  fun_induction chunks size bytes with
  | case1 bytes h => simp_all
  | case2 bytes h ih => simp [ih]

end Bytes

end SealedContent
