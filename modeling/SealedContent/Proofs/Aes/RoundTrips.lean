import SealedContent.Proofs.Aes.Inverse
import SealedContent.Proofs.Aes.Positions
import SealedContent.Proofs.Windows

/-! # Modes of operation undone

A sector is encrypted block by block, a string sector by sector, and each step has the inverse of
`Proofs.Aes.Inverse`: `xtsDecrypt_xtsEncrypt` and `xtsEncrypt_xtsDecrypt`. A keystream undoes itself:
`ctrAt_ctrAt`.
-/

namespace SealedContent

theorem Bytes.length_of_mem_chunks {size : Nat} {bytes : Bytes} (whole : size ∣ bytes.length) :
    ∀ piece ∈ Bytes.chunks size bytes, piece.length = size := by
  fun_induction Bytes.chunks size bytes with
  | case1 bytes none => exact List.forall_mem_nil _
  | case2 bytes some inductionHypothesis =>
    have nonempty : bytes.length ≠ 0 := fun none => some (.inr (List.length_eq_zero_iff.mp none))
    have long := Nat.le_of_dvd (Nat.pos_of_ne_zero nonempty) whole
    intro piece member
    cases List.mem_cons.mp member with
    | inl first => rw [first, List.length_take, Nat.min_eq_left long]
    | inr later =>
      refine inductionHypothesis ?_ piece later
      rw [List.length_drop]
      exact Nat.dvd_sub whole (Nat.dvd_refl size)

namespace Aes

/-! ## Blocks of a string -/

theorem Block.ofChunks_flatten (blocks : List Block) : Block.ofChunks (Block.flatten blocks) = blocks := by
  simp only [Block.ofChunks, Block.flatten, List.flatMap_def]
  rw [Bytes.chunks_flatten (by decide) (by simp), List.map_map]
  exact List.map_id blocks

theorem Block.flatten_ofChunks {data : Bytes} (whole : blockSize ∣ data.length) :
    Block.flatten (Block.ofChunks data) = data := by
  have kept : (Bytes.chunks 16 data).map (fun piece => (Block.ofBytes piece).toBytes) =
      (Bytes.chunks 16 data).map id :=
    List.map_congr_left fun piece member => Block.toBytes_ofBytes (Bytes.length_of_mem_chunks whole piece member)
  simp only [Block.ofChunks, Block.flatten, List.flatMap_def, List.map_map]
  exact (congrArg List.flatten (kept.trans (List.map_id _))).trans (Bytes.flatten_chunks (by decide) data)

/-! ## Sectors -/

variable {f g : Block → Block}

theorem tweaked_tweaked (inverts : ∀ a, f (g a) = a) (blocks : List Block) :
    ∀ tweak, tweaked f tweak (tweaked g tweak blocks) = blocks := by
  induction blocks with
  | nil => exact fun _ => rfl
  | cons a rest inductionHypothesis =>
    intro tweak
    simp only [tweaked]
    rw [Block.xor_self_right, inverts, Block.xor_self_right, inductionHypothesis]

theorem length_xtsSector (f : Block → Block) (keys : List Block) (number : Nat) {sector : Bytes}
    (whole : blockSize ∣ sector.length) : (xtsSector f keys number sector).length = sector.length := by
  obtain ⟨count, blocks⟩ := whole
  simp only [xtsSector, Block.ofChunks]
  rw [length_flatten, length_tweaked, List.length_map, length_chunks (by decide) count sector
    (by rw [blocks, Nat.mul_comm]; rfl), blocks, Nat.mul_comm]

theorem xtsSector_xtsSector (inverts : ∀ a, f (g a) = a) (keys : List Block) (number : Nat) {sector : Bytes}
    (whole : blockSize ∣ sector.length) : xtsSector f keys number (xtsSector g keys number sector) = sector := by
  simp only [xtsSector]
  rw [Block.ofChunks_flatten, tweaked_tweaked inverts, Block.flatten_ofChunks whole]

/-! ## Strings of sectors -/

/-- Strings of sectors are handled sector by sector, and no other strings are. -/
theorem xtsSectors_eq_ok_iff {keys : List Block} {first size : Nat} {data output : Bytes} :
    xtsSectors f keys first size data = .ok output ↔
      0 < size ∧ blockSize ∣ size ∧ size ∣ data.length ∧ output =
        ((data.chunks size).mapIdx fun i sector => xtsSector f keys (first + i) sector).flatten := by
  simp only [xtsSectors, List.flatMap_def, List.mapIdx_eq_zipIdx_map]
  split
  · next refused =>
    constructor
    · intro gives
      cases gives
    · rintro ⟨positive, aligned, whole, -⟩
      have := Nat.mod_eq_zero_of_dvd aligned
      have := Nat.mod_eq_zero_of_dvd whole
      omega
  · next taken =>
    simp only [not_or, Decidable.not_not] at taken
    obtain ⟨positive, aligned, whole⟩ := taken
    constructor
    · rintro ⟨⟩
      exact ⟨Nat.pos_of_ne_zero positive, Nat.dvd_of_mod_eq_zero aligned, Nat.dvd_of_mod_eq_zero whole, rfl⟩
    · rintro ⟨-, -, -, rfl⟩
      rfl

theorem length_of_mem_sectors (f : Block → Block) (keys : List Block) (first : Nat) {size : Nat}
    (aligned : blockSize ∣ size) {data : Bytes} (whole : size ∣ data.length) :
    ∀ sector ∈ (data.chunks size).mapIdx (fun i sector => xtsSector f keys (first + i) sector),
      sector.length = size := by
  intro sector member
  obtain ⟨i, inside, rfl⟩ := List.mem_mapIdx.mp member
  have long := Bytes.length_of_mem_chunks whole _ (List.getElem_mem inside)
  rw [length_xtsSector f keys _ (by rw [long]; exact aligned), long]

theorem length_xtsSectors {keys : List Block} {first size : Nat} {data output : Bytes}
    (gives : xtsSectors f keys first size data = .ok output) : output.length = data.length := by
  obtain ⟨positive, aligned, whole, rfl⟩ := xtsSectors_eq_ok_iff.mp gives
  have sized := length_of_mem_sectors f keys first aligned whole
  obtain ⟨count, blocks⟩ := whole
  rw [length_flatten_pieces size sized, List.length_mapIdx,
    length_chunks positive count data (by rw [blocks, Nat.mul_comm]), blocks, Nat.mul_comm]

theorem xtsSectors_xtsSectors (inverts : ∀ a, f (g a) = a) {keys : List Block} {first size : Nat}
    {data output : Bytes} (gives : xtsSectors g keys first size data = .ok output) :
    xtsSectors f keys first size output = .ok data := by
  have long := length_xtsSectors gives
  obtain ⟨positive, aligned, whole, rfl⟩ := xtsSectors_eq_ok_iff.mp gives
  refine xtsSectors_eq_ok_iff.mpr ⟨positive, aligned, by rw [long]; exact whole, ?_⟩
  have back : ((data.chunks size).mapIdx fun i sector => xtsSector g keys (first + i) sector).mapIdx
      (fun i sector => xtsSector f keys (first + i) sector) = data.chunks size := by
    rw [List.mapIdx_mapIdx]
    apply List.ext_getElem (List.length_mapIdx)
    intro i _ inside
    have sized := Bytes.length_of_mem_chunks whole _ (List.getElem_mem inside)
    rw [List.getElem_mapIdx]
    exact xtsSector_xtsSector inverts keys _ (by rw [sized]; exact aligned)
  rw [Bytes.chunks_flatten positive (length_of_mem_sectors g keys first aligned whole), back,
    Bytes.flatten_chunks (Nat.ne_of_gt positive)]

/-- Every sector is handled on its own. -/
theorem window_xtsSectors {keys : List Block} {first size : Nat} {data output : Bytes}
    (gives : xtsSectors f keys first size data = .ok output) {i : Nat} (inside : (i + 1) * size ≤ data.length) :
    output.window (i * size) size = xtsSector f keys (first + i) (data.window (i * size) size) := by
  obtain ⟨positive, aligned, whole, rfl⟩ := xtsSectors_eq_ok_iff.mp gives
  have pieces := Bytes.length_of_mem_chunks whole
  have count : i < (data.chunks size).length := by
    have long := length_flatten_pieces size pieces
    rw [Bytes.flatten_chunks (Nat.ne_of_gt positive)] at long
    rw [long] at inside
    exact Nat.le_of_mul_le_mul_right inside positive
  have piece := Bytes.window_flatten pieces i count
  rw [Bytes.flatten_chunks (Nat.ne_of_gt positive)] at piece
  rw [piece, Bytes.window_flatten (length_of_mem_sectors f keys first aligned whole) i
    (by rw [List.length_mapIdx]; exact count), List.getElem_mapIdx]

theorem window_xtsSector (f : Block → Block) (keys : List Block) (number : Nat) {sector : Bytes}
    (nonempty : sector ≠ []) :
    (xtsSector f keys number sector).window 0 blockSize =
      (((f ((Block.ofBytes (sector.take blockSize)).xor (encryptWith keys (.ofNat number)))).xor
        (encryptWith keys (.ofNat number))).toBytes) := by
  have first : Bytes.chunks 16 sector = sector.take 16 :: Bytes.chunks 16 (sector.drop 16) := by
    rw [Bytes.chunks, dif_neg (by simp [nonempty])]
  simp only [xtsSector, Block.ofChunks, first, List.map_cons, tweaked, Block.flatten, List.flatMap_cons]
  exact (Bytes.window_append_left (Nat.le_refl 16)).trans (Bytes.window_all _)

theorem xtsDecrypt_xtsEncrypt {key : XtsKey} {first size : Nat} {data sealed : Bytes}
    (gives : xtsEncrypt key first size data = .ok sealed) : xtsDecrypt key first size sealed = .ok data :=
  xtsSectors_xtsSectors (decryptWith_encryptWith _) gives

theorem xtsEncrypt_xtsDecrypt {key : XtsKey} {first size : Nat} {data plain : Bytes}
    (gives : xtsDecrypt key first size data = .ok plain) : xtsEncrypt key first size plain = .ok data :=
  xtsSectors_xtsSectors (encryptWith_decryptWith _) gives

theorem xtsEncrypt_ok (key : XtsKey) (first : Nat) {size : Nat} {data : Bytes} (positive : 0 < size)
    (aligned : blockSize ∣ size) (whole : size ∣ data.length) :
    ∃ sealed, xtsEncrypt key first size data = .ok sealed ∧ sealed.length = data.length := by
  have gives := (@xtsSectors_eq_ok_iff (encryptWith (roundKeys key.data)) (roundKeys key.tweak) first size data
    _).mpr ⟨positive, aligned, whole, rfl⟩
  exact ⟨_, gives, length_xtsSectors gives⟩

/-! ## Keystreams -/

/-- The same byte of a keystream twice. -/
theorem map_xor_map_xor (mask : UInt8) (byte : Option UInt8) :
    (byte.map (· ^^^ mask)).map (· ^^^ mask) = byte := by
  cases byte with
  | none => rfl
  | some byte =>
    simp only [Option.map_some]
    rw [UInt8.xor_assoc, UInt8.xor_self, UInt8.xor_zero]

theorem ctrAt_ctrAt (key base : Block) (offset : Nat) (data : Bytes) :
    ctrAt key base offset (ctrAt key base offset data) = data := by
  apply List.ext_getElem?
  intro i
  rw [getElem?_ctrAt, getElem?_ctrAt, map_xor_map_xor]

/-- The first bytes are decrypted alone as they are with the rest. -/
theorem take_ctr (key counter : Block) (data : Bytes) (count : Nat) :
    (ctr key counter data).take count = ctr key counter (data.take count) := by
  apply List.ext_getElem?
  intro i
  rw [List.getElem?_take, ctr, ctr, getElem?_ctrAt, getElem?_ctrAt, List.getElem?_take]
  split
  · rfl
  · rfl

end Aes

end SealedContent
