import SealedContent.Bytes

/-! # UTF-8

Names and key files are UTF-8 text:

* `Utf8.encode` — the bytes of a text.
* `Utf8.scan` — one item for every well-formed scalar value and one for every maximal ill-formed
  subpart, in order.
* `Utf8.decode?` refuses ill-formed input, `Utf8.decodeLossy` puts U+FFFD for each ill-formed
  subpart.
-/

namespace SealedContent.Utf8

/-! ## Encoding -/

def encode (text : String) : Bytes := text.toList.flatMap String.utf8EncodeChar

/-! ## Decoding -/

/-- What a leading byte announces: how many bytes follow it, the range of the first of them, and the
    bits that the leading byte itself contributes. -/
structure Lead where
  trail : Nat
  low : Nat
  high : Nat
  bits : Nat

/-- The sequence that a leading byte opens. Continuation bytes, overlong leads and leads above
    U+10FFFF open none. -/
def lead? (b : Nat) : Option Lead :=
  if b < 0x80 then some ⟨0, 0, 0, b⟩
  else if b < 0xC2 then none
  else if b < 0xE0 then some ⟨1, 0x80, 0xBF, b - 0xC0⟩
  else if b < 0xF0 then
    some ⟨2, if b = 0xE0 then 0xA0 else 0x80, if b = 0xED then 0x9F else 0xBF, b - 0xE0⟩
  else if b < 0xF5 then
    some ⟨3, if b = 0xF0 then 0x90 else 0x80, if b = 0xF4 then 0x8F else 0xBF, b - 0xF0⟩
  else none

/-- Takes `n` continuation bytes, the first of them in the given range. Gives the code point, or
    nothing if one is missing, and the bytes not used. -/
def continuation : (n low high bits : Nat) → Bytes → Option Nat × Bytes
  | 0, _, _, bits, rest => (some bits, rest)
  | _ + 1, _, _, _, [] => (none, [])
  | n + 1, low, high, bits, b :: rest =>
    if low ≤ b.toNat ∧ b.toNat ≤ high then
      continuation n 0x80 0xBF (bits * 64 + (b.toNat - 0x80)) rest
    else (none, b :: rest)

theorem length_continuation_le (n low high bits : Nat) (bytes : Bytes) :
    (continuation n low high bits bytes).2.length ≤ bytes.length := by
  fun_induction continuation n low high bits bytes with
  | case1 => exact Nat.le_refl _
  | case2 => exact Nat.le_refl _
  | case3 n low high bits b rest h ih => exact Nat.le_succ_of_le ih
  | case4 => exact Nat.le_refl _

/-- The scalar values of a byte string in order, with nothing in the place of each maximal
    ill-formed subpart. -/
def scan : Bytes → List (Option Char)
  | [] => []
  | b :: rest =>
    match lead? b.toNat with
    | none => none :: scan rest
    | some lead =>
      let step := continuation lead.trail lead.low lead.high lead.bits rest
      step.1.map Char.ofNat :: scan step.2
termination_by bytes => bytes.length
decreasing_by
  · exact Nat.lt_succ_self _
  · exact Nat.lt_succ_of_le (length_continuation_le lead.trail lead.low lead.high lead.bits rest)

def decode? (bytes : Bytes) : Option (List Char) := (scan bytes).mapM id

/-- The text of any byte string, with U+FFFD for each maximal ill-formed subpart. -/
def decodeLossy (bytes : Bytes) : String :=
  String.ofList ((scan bytes).map fun c => c.getD (Char.ofNat 0xFFFD))

end SealedContent.Utf8
