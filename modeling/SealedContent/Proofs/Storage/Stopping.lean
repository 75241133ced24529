import SealedContent.Proofs.Storage.Serving

/-! # Where reads stop at a sum

A cipher with generations adds the start of its container to each piece that it decrypts, and one with sectors the
number of the first to that of each range. Neither checks the sum: where it has more than 64 bits, the read stops.
`StorageCipher.Overflows` says for which ranges: `readDecrypted_eq_overflow_iff`.
-/

namespace SealedContent

/-! ## Subsections -/

/-- Going through a range subsection by subsection meets a piece whose place in the container has more than 64 bits. -/
def BucketTree.Overflows (table : BucketTree Subsection) (start offset length : Nat) : Prop :=
  ∃ i < length, (∀ j ≤ i, (table.find? (offset + j)).isSome) ∧
    ∃ piece ∈ table.find? (offset + i), UInt64.size ≤ start + max offset piece.1.offset

namespace BucketTree

variable {table : BucketTree Subsection} {start offset length last : Nat} {entry : Subsection}

instance : Decidable (table.Overflows start offset length) :=
  inferInstanceAs (Decidable (∃ i < length, _))

theorem Overflows.mono {longer : Nat} (overflows : table.Overflows start offset length) (inside : length ≤ longer) :
    table.Overflows start offset longer := by
  obtain ⟨i, before, rest⟩ := overflows
  exact ⟨i, Nat.lt_of_lt_of_le before inside, rest⟩

/-- A position behind the end of a range is covered by an entry that starts there or later. -/
theorem le_offset_of_find? (laid : table.WellLaid) (found : table.find? offset = some (entry, last)) {position : Nat}
    {other : Subsection} {otherLast : Nat} (covered : table.find? position = some (other, otherLast))
    (behind : last ≤ position) : last ≤ other.offset := by
  by_contra early
  have before := lt_of_find? found
  obtain ⟨member, started, ends⟩ := laid.find?_eq_some_iff_mem.mp covered
  have here : BucketEntry.offset other = other.offset := rfl
  -- otherwise both ranges hold the later of `offset` and where the other entry starts
  have shared := laid.find?_eq_some_iff_mem.mpr
    ⟨member, show BucketEntry.offset other ≤ max offset other.offset by omega, show _ < otherLast by omega⟩
  have same := find?_stable laid found (Nat.le_max_left offset other.offset) (by omega)
  cases same.symm.trans shared
  omega

/-- Behind a first piece that does not stop, the rest of the range decides. -/
theorem overflows_behind (laid : table.WellLaid) (found : table.find? offset = some (entry, last))
    (fits : start + offset < UInt64.size) :
    table.Overflows start offset length ↔ table.Overflows start last (length - (last - offset)) := by
  have before := lt_of_find? found
  have started : entry.offset ≤ offset := offset_le_of_find? found
  constructor
  · rintro ⟨i, inside, covered, ⟨other, otherLast⟩, there, long⟩
    dsimp only at long
    have behind : last ≤ offset + i := by
      by_contra early
      cases (find?_stable laid found (Nat.le_add_right offset i) (by omega)).symm.trans there
      omega
    have place : last + (i - (last - offset)) = offset + i := by omega
    refine ⟨i - (last - offset), by omega, fun j next => ?_, (other, otherLast), by rwa [place], by dsimp only; omega⟩
    have there := covered (last - offset + j) (by omega)
    rwa [show offset + (last - offset + j) = last + j by omega] at there
  · rintro ⟨i, inside, covered, ⟨other, otherLast⟩, there, long⟩
    dsimp only at long
    have behind := le_offset_of_find? laid found there (Nat.le_add_right last i)
    have place : offset + (last - offset + i) = last + i := by omega
    refine ⟨last - offset + i, by omega, fun j next => ?_, (other, otherLast), by rwa [place], by dsimp only; omega⟩
    by_cases first : offset + j < last
    · rw [find?_stable laid found (Nat.le_add_right offset j) first]
      rfl
    · have there := covered (offset + j - last) (by omega)
      rwa [show last + (offset + j - last) = offset + j by omega] at there

/-- Where all places have 64 bits, nothing stops. -/
theorem not_overflows {size : Nat} (fits : start + size ≤ UInt64.size) (inside : offset + length ≤ size) :
    ¬table.Overflows start offset length := by
  rintro ⟨i, before, -, ⟨entry, last⟩, found, long⟩
  have started : entry.offset ≤ offset + i := offset_le_of_find? found
  dsimp only at long
  omega

end BucketTree

/-- A decryption by generations stops at a sum exactly where a piece starts there. -/
theorem decryptGenerations_eq_overflow_iff (key : Aes.Block) (upper start : Nat) {table : BucketTree Subsection}
    (laid : table.WellLaid) (position : Nat) (data : Bytes) :
    decryptGenerations key upper start table position data = .error .overflow ↔
      table.Overflows start position data.length := by
  -- piece by piece: the first one is met, or what is behind it decides
  fun_induction decryptGenerations key upper start table position data with
  | case1 position => exact ⟨nofun, fun ⟨_, before, _⟩ => absurd before (Nat.not_lt_zero _)⟩
  | case2 position data nonempty missing =>
    refine ⟨nofun, fun ⟨i, _, covered, _⟩ => ?_⟩
    have there := covered 0 (Nat.zero_le i)
    rw [Nat.add_zero, missing] at there
    cases there
  | case3 position data nonempty entry last found stalled =>
    exact absurd (BucketTree.lt_of_find? found) (Nat.not_lt_of_le stalled)
  | case4 position data nonempty entry last found advances long =>
    have some : 0 < data.length := List.length_pos_iff.mpr nonempty
    refine ⟨fun _ => ⟨0, some, fun j first => ?_, (entry, last), found, by omega⟩, fun _ => rfl⟩
    rw [Nat.le_zero.mp first, Nat.add_zero, found]
    rfl
  | case5 position data nonempty entry last found advances fits count piece rest decrypted inductionHypothesis =>
    rw [BucketTree.overflows_behind laid found (by omega), ← List.length_drop, ← inductionHypothesis, decrypted]
    exact ⟨nofun, nofun⟩
  | case6 position data nonempty entry last found advances fits count error failed inductionHypothesis =>
    rw [BucketTree.overflows_behind laid found (by omega), ← List.length_drop, ← inductionHypothesis, failed]

/-! ## Ciphers -/

namespace StorageCipher

/-- The unit in which a cipher asks for its ciphertext. -/
def unit : StorageCipher → Nat
  | ctr .. | generations .. => 1
  | xts _ sectorSize _ => sectorSize
  | ecb _ => Aes.blockSize

/-- The units that a range touches start here. -/
def unitStart (cipher : StorageCipher) (offset : Nat) : Nat := offset / cipher.unit * cipher.unit

/-- The units that a range touches end here. -/
def unitEnd (cipher : StorageCipher) (offset length : Nat) : Nat :=
  (offset + length + (cipher.unit - 1)) / cipher.unit * cipher.unit

/-- A place in the container or the number of a sector has more than 64 bits. -/
def Overflows (cipher : StorageCipher) (offset length : Nat) : Prop :=
  match cipher with
  | ctr .. | ecb _ => False
  | generations _ _ start table => table.Overflows start offset length
  | xts _ sectorSize first => UInt64.size ≤ first + offset / sectorSize

end StorageCipher

open StorageCipher (unitStart unitEnd)

variable {inner : Fetch (Except Error)} {size offset length : Nat} {cipher : StorageCipher}

/-- A range whose units end behind all 64-bit numbers is not read. -/
theorem readDecrypted_far (inside : offset + length < UInt64.size)
    (far : UInt64.size ≤ cipher.unitEnd offset length) :
    readDecrypted cipher size inner offset length = .error .overflow := by
  cases cipher with
  | ctr | generations =>
    simp only [unitEnd, StorageCipher.unit, Nat.div_one, Nat.mul_one] at far
    omega
  | xts | ecb =>
    simp only [readDecrypted, readUnits]
    exact if_pos far

/-- With the ciphertext at hand, a read stops exactly where the cipher says. -/
theorem readDecrypted_eq_overflow_iff (wellMade : cipher.WellMade) (short : size < UInt64.size) {data : Bytes}
    (fetched : inner (cipher.unitStart offset) (cipher.unitEnd offset length - cipher.unitStart offset) = .ok data)
    (inside : cipher.unitEnd offset length ≤ size)
    (long : data.length = cipher.unitEnd offset length - cipher.unitStart offset) :
    readDecrypted cipher size inner offset length = .error .overflow ↔ cipher.Overflows offset length := by
  cases cipher with
  | ctr key counter =>
    simp only [unitStart, unitEnd, StorageCipher.unit, Nat.div_one, Nat.mul_one, Nat.sub_self, Nat.add_zero,
      Nat.add_sub_cancel_left] at fetched
    simp only [readDecrypted, fetched, StorageCipher.Overflows, iff_false]
    intro stopped
    cases stopped
  | generations key upper start table =>
    simp only [unitStart, unitEnd, StorageCipher.unit, Nat.div_one, Nat.mul_one, Nat.sub_self, Nat.add_zero,
      Nat.add_sub_cancel_left] at fetched long
    subst long
    simp only [readDecrypted, fetched, ofExcept_eq, StorageCipher.Overflows]
    exact decryptGenerations_eq_overflow_iff key upper start wellMade offset data
  | xts key sectorSize first =>
    have positive : 0 < sectorSize := Nat.pos_of_ne_zero wellMade
    simp only [unitStart, unitEnd, StorageCipher.unit] at fetched inside
    simp only [readDecrypted, readUnits, StorageCipher.Overflows, fetched, ofExcept_eq]
    rw [if_neg (by omega), if_neg (by omega)]
    show (do return Bytes.window (← decryptSectors _ _ _ _ data) _ _) = _ ↔ _
    simp only [decryptSectors, Nat.mul_div_cancel _ positive]
    by_cases far : UInt64.size ≤ first + offset / sectorSize
    · rw [if_pos far]
      exact iff_of_true rfl far
    · rw [if_neg far]
      refine iff_of_false ?_ far
      simp only [Aes.xtsDecrypt, Aes.xtsSectors]
      intro stopped
      split at stopped <;> cases stopped
  | ecb key =>
    simp only [unitStart, unitEnd, StorageCipher.unit] at fetched inside
    simp only [readDecrypted, readUnits, StorageCipher.Overflows, fetched, ofExcept_eq, iff_false]
    rw [if_neg (by omega), if_neg (by omega)]
    show (do return Bytes.window (← Aes.ecbDecrypt key data) _ _) ≠ _
    simp only [Aes.ecbDecrypt, Aes.wholeBlocks]
    intro stopped
    split at stopped <;> cases stopped

end SealedContent
