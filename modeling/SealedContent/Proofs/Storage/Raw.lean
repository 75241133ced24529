import SealedContent.Proofs.Storage.Runs

/-! # Storages without their checks

`Storage.raw` is a storage in which nothing is verified. Checks only refuse bytes, they never change any: what can be
read of a storage is what the raw storage has there (`Storage.within_raw`).
-/

namespace SealedContent

/-! ## Fewer bytes -/

namespace ByteMap

/-- The bytes of a map are those of another, as far as there are any. -/
def Below (map other : ByteMap) : Prop := ∀ position byte, map position = some byte → other position = some byte

namespace Below

variable {map other : ByteMap} {offset length : Nat} {bytes : Bytes}

theorem window? (below : map.Below other) (found : map.window? offset length = some bytes) :
    other.window? offset length = some bytes := by
  obtain ⟨long, each⟩ := window?_eq_some_iff.mp found
  refine window?_eq_some_iff.mpr ⟨long, fun i before => ?_⟩
  have here := each i before
  rw [List.getElem?_eq_getElem (by omega)] at here ⊢
  exact below _ _ here

theorem cached (below : map.Below other) (blockSize size : Nat) :
    (map.cached blockSize size).Below (other.cached blockSize size) := by
  intro position byte found
  simp only [ByteMap.cached] at found ⊢
  split at found
  -- a byte is there if its whole block is, and then the other map has the block too
  · next whole =>
    obtain ⟨block, there⟩ := Option.isSome_iff_exists.mp whole
    rw [below.window? there, Option.isSome_some, if_pos rfl]
    exact below _ _ found
  · cases found

theorem units (below : map.Below other) (unit : Nat) (plain : Nat → Bytes → Bytes) :
    (map.units unit plain).Below (other.units unit plain) := by
  intro position byte found
  obtain ⟨block, there, inside⟩ := Option.bind_eq_some_iff.mp found
  obtain ⟨sealed, whole, rfl⟩ := Option.map_eq_some_iff.mp there
  exact Option.bind_eq_some_iff.mpr ⟨_, Option.map_eq_some_iff.mpr ⟨sealed, below.window? whole, rfl⟩, inside⟩

theorem changed (below : map.Below other) (change : UInt8 → UInt8) {position : Nat} {byte : UInt8}
    (found : (map position).map change = some byte) : (other position).map change = some byte := by
  obtain ⟨sealed, there, rfl⟩ := Option.map_eq_some_iff.mp found
  exact Option.map_eq_some_iff.mpr ⟨sealed, below _ _ there, rfl⟩

theorem decrypted (below : map.Below other) (cipher : StorageCipher) :
    (map.decrypted cipher).Below (other.decrypted cipher) := by
  cases cipher with
  | ctr key counter => exact fun position byte found => below.changed _ found
  | generations key upper start table =>
    intro position byte found
    simp only [ByteMap.decrypted] at found ⊢
    split at found
    · exact below.changed _ found
    · cases found
  | xts key sectorSize first =>
    simp only [ByteMap.decrypted]
    split
    · exact below.units _ _
    · intro position byte found
      cases found
  | ecb key => exact below.units _ _

theorem relocated {patch otherPatch : ByteMap} (below : map.Below other) (patchBelow : patch.Below otherPatch)
    (table : BucketTree Relocation) :
    (ByteMap.relocated table map patch).Below (ByteMap.relocated table other otherPatch) := by
  intro position byte found
  simp only [ByteMap.relocated, Relocation.choose?] at found ⊢
  split at found
  · split at found
    · exact below _ _ found
    · exact patchBelow _ _ found
    · cases found
  · cases found

theorem verified (check : BlockCheck) (size : Nat) (data hashes : ByteMap) :
    (ByteMap.verified check size data hashes).Below data := by
  intro position byte found
  simp only [ByteMap.verified] at found
  split at found
  · exact found
  · split at found
    · exact found
    · cases found

end Below

end ByteMap

/-! ## Raw storages -/

namespace Storage

mutual

/-- The storage with nothing verified. -/
def raw : Storage → Storage
  | memory bytes => memory bytes
  | stream source => stream source
  | slice parent start length => slice parent.raw start length
  | cache table inner blockSize capacity => cache table inner.raw blockSize capacity
  | decrypt inner cipher => decrypt inner.raw cipher
  | concat segments => concat (rawSegments segments)
  | indirect base patch table => indirect base.raw patch.raw table
  | verified _ _ data _ => data.raw

/-- Several storages with nothing verified. -/
def rawSegments : List Storage → List Storage
  | [] => []
  | segment :: rest => segment.raw :: rawSegments rest

end

mutual

/-- What can be read is what is there without any checks. -/
theorem within_raw : ∀ node : Storage, node.Within node.raw
  | memory _ | stream _ => ⟨rfl, fun _ _ there => there⟩
  | slice parent start length => by
    refine ⟨rfl, fun position byte there => ?_⟩
    simp only [raw, byte?] at there ⊢
    split at there
    · next inside =>
      rw [if_pos inside]
      exact parent.within_raw.byte _ _ there
    · cases there
  | cache table inner blockSize capacity => by
    have below := inner.within_raw
    refine ⟨below.size, ?_⟩
    simp only [raw, byte?, ← below.size]
    exact ByteMap.Below.cached below.byte blockSize inner.size
  | decrypt inner cipher => ⟨inner.within_raw.size, ByteMap.Below.decrypted inner.within_raw.byte cipher⟩
  | concat segments => ⟨(segments_within_raw segments).1, (segments_within_raw segments).2⟩
  | indirect base patch table =>
    ⟨rfl, ByteMap.Below.relocated base.within_raw.byte patch.within_raw.byte table⟩
  | verified cell check data hashes =>
    ⟨data.within_raw.size, fun position byte there =>
      data.within_raw.byte _ _ (ByteMap.Below.verified check data.size data.byte? hashes.byte? position byte there)⟩

theorem segments_within_raw : ∀ segments : List Storage, sizes segments = sizes (rawSegments segments) ∧
    ByteMap.Below (segmentsByte? segments) (segmentsByte? (rawSegments segments))
  | [] => ⟨rfl, fun _ _ there => there⟩
  | segment :: rest => by
    have first := segment.within_raw
    obtain ⟨size, below⟩ := segments_within_raw rest
    refine ⟨by simp only [sizes, rawSegments, first.size, size], fun position byte there => ?_⟩
    simp only [rawSegments, segmentsByte?, ← first.size] at there ⊢
    split at there
    · next inside =>
      rw [if_pos inside]
      exact first.byte _ _ there
    · next behind =>
      rw [if_neg behind]
      exact below _ _ there

end

end Storage

end SealedContent
