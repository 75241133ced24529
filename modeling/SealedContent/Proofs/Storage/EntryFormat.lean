import SealedContent.Proofs.Windows
import SealedContent.Storage.BucketTree

/-! # How entries are written

An entry is written by its numbers, one behind the other: `Relocation.encode`, `Subsection.encode`. Some bytes of an
entry may be reserved: they say nothing. `EntryFormat` is what writing and reading have to do with each other,
however the reserved bytes are filled.
-/

namespace SealedContent

/-- How entries are written, whatever stands in their reserved bytes. -/
class EntryFormat (E : Type) [BucketEntry E] where
  /-- The numbers of an entry fit their fields. -/
  Fits : E → Prop
  reservedSize : Nat
  /-- The reserved bytes of a written entry. -/
  reserved : Bytes → Bytes
  encode : E → (reserved : Bytes) → Bytes
  length_encode : ∀ entry {reserved : Bytes}, reserved.length = reservedSize →
    (encode entry reserved).length = BucketEntry.size E
  decode_encode : ∀ {entry} {reserved : Bytes}, Fits entry → reserved.length = reservedSize →
    BucketEntry.decode (encode entry reserved) = entry
  length_reserved : ∀ {bytes : Bytes}, bytes.length = BucketEntry.size E → (reserved bytes).length = reservedSize
  fits_decode : ∀ {bytes : Bytes}, bytes.length = BucketEntry.size E → Fits (BucketEntry.decode bytes : E)
  encode_decode : ∀ {bytes : Bytes}, bytes.length = BucketEntry.size E →
    encode (BucketEntry.decode bytes) (reserved bytes) = bytes

/-! ## Relocations -/

def Relocation.encode (entry : Relocation) : Bytes :=
  LittleEndian.encode 8 entry.offset ++ (LittleEndian.encode 8 entry.source ++ LittleEndian.encode 4 entry.storage)

namespace Relocation

theorem length_encode (entry : Relocation) : entry.encode.length = BucketEntry.size Relocation := by
  simp [encode, BucketEntry.size]

theorem decode_encode {entry : Relocation}
    (fits : entry.offset < 256 ^ 8 ∧ entry.source < 256 ^ 8 ∧ entry.storage < 256 ^ 4) :
    BucketEntry.decode entry.encode = entry := by
  obtain ⟨offset, source, storage⟩ := fits
  simp only [BucketEntry.decode, encode, Bytes.window_append_of_le, Bytes.window_append_first, Bytes.window_eq_self,
    LittleEndian.length_encode, LittleEndian.decode_encode, Nat.reduceSub, Nat.reduceLeDiff]
  rw [Nat.mod_eq_of_lt offset, Nat.mod_eq_of_lt source, Nat.mod_eq_of_lt storage]

theorem decode_fits (bytes : Bytes) :
    (BucketEntry.decode bytes : Relocation).offset < 256 ^ 8 ∧
      (BucketEntry.decode bytes : Relocation).source < 256 ^ 8 ∧
      (BucketEntry.decode bytes : Relocation).storage < 256 ^ 4 :=
  ⟨Bytes.fieldAt_lt _ _ _, Bytes.fieldAt_lt _ _ _, Bytes.fieldAt_lt _ _ _⟩

theorem encode_decode {bytes : Bytes} (long : bytes.length = BucketEntry.size Relocation) :
    encode (BucketEntry.decode bytes) = bytes := by
  simp only [BucketEntry.size] at long
  simp only [BucketEntry.decode, encode]
  rw [← Bytes.fieldAt, ← Bytes.fieldAt, ← Bytes.fieldAt, Bytes.encode_fieldAt (by omega),
    Bytes.encode_fieldAt (by omega), Bytes.encode_fieldAt (by omega), ← Bytes.window_add bytes 8 8 4,
    ← Bytes.window_add bytes 0 8 12, Bytes.window_eq_self long]

end Relocation

/-- A relocation fills all of its bytes. -/
instance : EntryFormat Relocation where
  Fits entry := entry.offset < 256 ^ 8 ∧ entry.source < 256 ^ 8 ∧ entry.storage < 256 ^ 4
  reservedSize := 0
  reserved _ := []
  encode entry _ := entry.encode
  length_encode entry _ _ := entry.length_encode
  decode_encode fits _ := Relocation.decode_encode fits
  length_reserved _ := rfl
  fits_decode _ := Relocation.decode_fits _
  encode_decode long := Relocation.encode_decode long

/-! ## Subsections -/

/-- Four reserved bytes stand between the offset and the generation. -/
def Subsection.encodeWith (reserved : Bytes) (entry : Subsection) : Bytes :=
  LittleEndian.encode 8 entry.offset ++ (reserved ++ LittleEndian.encode 4 entry.generation)

def Subsection.encode (entry : Subsection) : Bytes :=
  LittleEndian.encode 8 entry.offset ++ (Bytes.zeros 4 ++ LittleEndian.encode 4 entry.generation)

namespace Subsection

variable {reserved : Bytes}

theorem length_encodeWith (entry : Subsection) (long : reserved.length = 4) :
    (entry.encodeWith reserved).length = BucketEntry.size Subsection := by
  simp [encodeWith, BucketEntry.size, long]

theorem decode_encodeWith {entry : Subsection} (fits : entry.offset < 256 ^ 8 ∧ entry.generation < 256 ^ 4)
    (long : reserved.length = 4) : BucketEntry.decode (entry.encodeWith reserved) = entry := by
  obtain ⟨offset, generation⟩ := fits
  simp only [BucketEntry.decode, encodeWith, Bytes.window_append_of_le, Bytes.window_append_first,
    Bytes.window_eq_self, long, LittleEndian.length_encode, LittleEndian.decode_encode, Nat.reduceSub,
    Nat.reduceLeDiff]
  rw [Nat.mod_eq_of_lt offset, Nat.mod_eq_of_lt generation]

theorem length_reserved {bytes : Bytes} (long : bytes.length = BucketEntry.size Subsection) :
    (bytes.window 8 4).length = 4 := by
  simp only [BucketEntry.size] at long
  exact Bytes.length_window (by omega)

theorem decode_fits (bytes : Bytes) :
    (BucketEntry.decode bytes : Subsection).offset < 256 ^ 8 ∧
      (BucketEntry.decode bytes : Subsection).generation < 256 ^ 4 :=
  ⟨Bytes.fieldAt_lt _ _ _, Bytes.fieldAt_lt _ _ _⟩

theorem encodeWith_decode {bytes : Bytes} (long : bytes.length = BucketEntry.size Subsection) :
    encodeWith (bytes.window 8 4) (BucketEntry.decode bytes) = bytes := by
  simp only [BucketEntry.size] at long
  simp only [BucketEntry.decode, encodeWith]
  rw [← Bytes.fieldAt, ← Bytes.fieldAt, Bytes.encode_fieldAt (by omega), Bytes.encode_fieldAt (by omega),
    ← Bytes.window_add bytes 8 4 4, ← Bytes.window_add bytes 0 8 8, Bytes.window_eq_self long]

end Subsection

instance : EntryFormat Subsection where
  Fits entry := entry.offset < 256 ^ 8 ∧ entry.generation < 256 ^ 4
  reservedSize := 4
  reserved bytes := bytes.window 8 4
  encode entry reserved := entry.encodeWith reserved
  length_encode entry _ long := entry.length_encodeWith long
  decode_encode fits long := Subsection.decode_encodeWith fits long
  length_reserved long := Subsection.length_reserved long
  fits_decode _ := Subsection.decode_fits _
  encode_decode long := Subsection.encodeWith_decode long

end SealedContent
