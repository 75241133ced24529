import SealedContent.Bytes.Endian

/-! # AES blocks

The 16-byte blocks and keys of AES:

* `Column`, `Block` — four bytes, and four columns of them, with exclusive or.
* `XtsKey` — a pair of keys for data and tweak.
* `Block.ofBytes`, `Block.toBytes`, `Block.ofNat`, `Block.toNat` — a block as a string and as a
  128-bit big-endian number.
-/

namespace SealedContent.Aes

/-! ## Columns -/

/-- Four bytes of a block, top to bottom. -/
structure Column where
  b0 : UInt8
  b1 : UInt8
  b2 : UInt8
  b3 : UInt8
deriving DecidableEq, Repr, Inhabited

namespace Column

/-- Bytewise exclusive or. -/
def xor (a b : Column) : Column := ⟨a.b0 ^^^ b.b0, a.b1 ^^^ b.b1, a.b2 ^^^ b.b2, a.b3 ^^^ b.b3⟩

def map (f : UInt8 → UInt8) (a : Column) : Column := ⟨f a.b0, f a.b1, f a.b2, f a.b3⟩

def toBytes (a : Column) : Bytes := [a.b0, a.b1, a.b2, a.b3]

theorem xor_self_right (a b : Column) : (a.xor b).xor b = a := by
  simp only [xor, UInt8.xor_assoc, UInt8.xor_self, UInt8.xor_zero]

end Column

/-! ## Blocks -/

/-- Sixteen bytes, column after column: a block of text or a key. -/
structure Block where
  c0 : Column
  c1 : Column
  c2 : Column
  c3 : Column
deriving DecidableEq, Repr, Inhabited

namespace Block

/-- Bytewise exclusive or. -/
def xor (a b : Block) : Block := ⟨a.c0.xor b.c0, a.c1.xor b.c1, a.c2.xor b.c2, a.c3.xor b.c3⟩

def mapColumns (f : Column → Column) (a : Block) : Block := ⟨f a.c0, f a.c1, f a.c2, f a.c3⟩

def toBytes (a : Block) : Bytes :=
  a.c0.toBytes ++ a.c1.toBytes ++ a.c2.toBytes ++ a.c3.toBytes

/-- The block of the first sixteen bytes, with zeros for those that are missing. -/
def ofBytes (bytes : Bytes) : Block :=
  let column (i : Nat) : Column :=
    ⟨bytes.getD i 0, bytes.getD (i + 1) 0, bytes.getD (i + 2) 0, bytes.getD (i + 3) 0⟩
  ⟨column 0, column 4, column 8, column 12⟩

def zero : Block := ofBytes []

/-- The 128 low bits of a number, most significant byte first. -/
def ofNat (n : Nat) : Block := ofBytes (BigEndian.encode 16 n)

def toNat (a : Block) : Nat := BigEndian.decode a.toBytes

@[simp] theorem length_toBytes (a : Block) : a.toBytes.length = 16 := rfl

@[simp] theorem ofBytes_toBytes (a : Block) : ofBytes a.toBytes = a := rfl

theorem toBytes_ofBytes {bytes : Bytes} (h : bytes.length = 16) : (ofBytes bytes).toBytes = bytes := by
  match bytes, h with
  | [_, _, _, _, _, _, _, _, _, _, _, _, _, _, _, _], _ => rfl

theorem toBytes_ofNat (n : Nat) : (ofNat n).toBytes = BigEndian.encode 16 n :=
  toBytes_ofBytes (BigEndian.length_encode 16 n)

theorem ofNat_toNat (a : Block) : ofNat a.toNat = a := by
  have h := BigEndian.encode_decode a.toBytes
  rw [length_toBytes] at h
  rw [ofNat, toNat, h, ofBytes_toBytes]

theorem xor_self_right (a b : Block) : (a.xor b).xor b = a := by
  simp [xor, Column.xor_self_right]

/-- The whole blocks of a byte string; a short piece at the end is filled with zeros. -/
def ofChunks (bytes : Bytes) : List Block := (bytes.chunks 16).map ofBytes

def flatten (blocks : List Block) : Bytes := blocks.flatMap toBytes

end Block

/-! ## Key pairs -/

/-- A data key and a tweak key. -/
structure XtsKey where
  data : Block
  tweak : Block
deriving DecidableEq, Repr, Inhabited

/-- The two keys in 32 bytes. -/
def XtsKey.ofBytes (bytes : Bytes) : XtsKey :=
  ⟨Block.ofBytes (bytes.take 16), Block.ofBytes (bytes.drop 16)⟩

def XtsKey.toBytes (key : XtsKey) : Bytes := key.data.toBytes ++ key.tweak.toBytes

end SealedContent.Aes
