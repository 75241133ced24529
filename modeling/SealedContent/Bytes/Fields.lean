import SealedContent.Bytes.Endian
import SealedContent.Error

/-! # Fields of a byte string

Fields at fixed offsets of a header that is already in memory. A field that does not fit is a
truncation.

* `bytesAt`, `numberAt` — a field of a given width as bytes or as a little-endian number.
* `terminatedAt` — the bytes from an offset up to a zero byte.
-/

namespace SealedContent.Bytes

def bytesAt (bytes : Bytes) (offset width : Nat) : Except Error Bytes :=
  match bytes.window? offset width with
  | some field => .ok field
  | none => .error .truncated

/-- The little-endian number of `width` bytes at an offset. -/
def numberAt (bytes : Bytes) (offset width : Nat) : Except Error Nat :=
  (bytes.bytesAt offset width).map LittleEndian.decode

/-- The bytes from an offset up to the next zero byte. The offset may be the end of the string, but
    a zero byte must follow it. -/
def terminatedAt (bytes : Bytes) (offset : Nat) : Except Error Bytes :=
  if bytes.length < offset then .error (.outOfRange offset 1 bytes.length)
  else
    let rest := bytes.drop offset
    if (0 : UInt8) ∈ rest then .ok (rest.takeWhile (· != 0)) else .error .unterminatedName

end SealedContent.Bytes
