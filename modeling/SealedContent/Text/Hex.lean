import SealedContent.Bytes

/-! # Hexadecimal text

Bytes and numbers written in base sixteen:

* `Hex.lower`, `Hex.upper` — two digits a byte.
* `Hex.decode?` — reads digits of either case, two a byte and nothing else.
* `Hex.numeral` — a number behind `0x`; `Hex.twoDigits` — a small number padded to two digits.
-/

namespace SealedContent.Hex

/-! ## Digits -/

def lowerDigit (n : Nat) : Char :=
  if n < 10 then Char.ofNat ('0'.toNat + n) else Char.ofNat ('a'.toNat + (n - 10))

def upperDigit (n : Nat) : Char :=
  if n < 10 then Char.ofNat ('0'.toNat + n) else Char.ofNat ('A'.toNat + (n - 10))

def digit? (c : Char) : Option Nat :=
  let n := c.toNat
  if '0'.toNat ≤ n ∧ n ≤ '9'.toNat then some (n - '0'.toNat)
  else if 'a'.toNat ≤ n ∧ n ≤ 'f'.toNat then some (n - 'a'.toNat + 10)
  else if 'A'.toNat ≤ n ∧ n ≤ 'F'.toNat then some (n - 'A'.toNat + 10)
  else none

theorem digit?_upperDigit : ∀ n < 16, digit? (upperDigit n) = some n := by decide

/-! ## Byte strings -/

/-- Two digits for every byte, most significant first. -/
def encode (digit : Nat → Char) (bytes : Bytes) : List Char :=
  bytes.flatMap fun b => [digit (b.toNat / 16), digit (b.toNat % 16)]

/-- The bytes that the digits name, if there are two for every byte. -/
def decode? : List Char → Option Bytes
  | [] => some []
  | [_] => none
  | high :: low :: rest => do
    let h ← digit? high
    let l ← digit? low
    let bytes ← decode? rest
    pure (UInt8.ofNat (h * 16 + l) :: bytes)

/-- `decode?` for a string of exactly `size` bytes. -/
def decodeExact? (size : Nat) (text : List Char) : Option Bytes :=
  (decode? text).filter (·.length = size)

/-- Bytes in lower-case digits. -/
def lower (bytes : Bytes) : String := String.ofList (encode lowerDigit bytes)

/-- Bytes in upper-case digits. -/
def upper (bytes : Bytes) : String := String.ofList (encode upperDigit bytes)

theorem decode?_encode {digit : Nat → Char} (hdigit : ∀ n < 16, digit? (digit n) = some n)
    (bytes : Bytes) : decode? (encode digit bytes) = some bytes := by
  induction bytes with
  | nil => rfl
  | cons b rest ih =>
    have hb : b.toNat < 256 := b.toNat_lt
    have hsum : UInt8.ofNat (b.toNat / 16 * 16 + b.toNat % 16) = b := by
      rw [show b.toNat / 16 * 16 + b.toNat % 16 = b.toNat by omega, UInt8.ofNat_toNat]
    show decode? (digit (b.toNat / 16) :: digit (b.toNat % 16) :: encode digit rest) = _
    rw [decode?, hdigit _ (by omega), hdigit _ (by omega), ih]
    show some (UInt8.ofNat (b.toNat / 16 * 16 + b.toNat % 16) :: rest) = _
    rw [hsum]

/-! ## Numbers -/

/-- A number in lower-case digits without leading zeros, behind `0x`. -/
def numeral (n : Nat) : String := "0x" ++ String.ofList (Nat.toDigits 16 n)

/-- A number in at least two lower-case digits. -/
def twoDigits (n : Nat) : String :=
  String.ofList (if n < 16 then '0' :: Nat.toDigits 16 n else Nat.toDigits 16 n)

end SealedContent.Hex
