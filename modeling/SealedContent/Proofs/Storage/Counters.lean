import SealedContent.Proofs.Aes.Streams
import SealedContent.Proofs.Storage.Lengths
import SealedContent.Proofs.Storage.Scanning
import SealedContent.Proofs.Storage.Stopping

/-! # Counters with and without generations

The counter of a byte can count from the start of its section or from the start of the container
(`Aes.ctrAt_sectionCounter`), and its upper half can come from the section or from the generation of a subsection.
Where the generations are those of the section, all of them give the same bytes, as long as no place in the container
has more than 64 bits: `counters_agree`.
-/

namespace SealedContent

open Aes (Block ctrAt sectionCounter generationCounter blockSize)

/-! ## Counters as numbers -/

namespace Aes

open BigEndian (encode)

/-- The counter of a section as a number: the number of the block fills its lower half. -/
theorem toNat_sectionCounter (upper offset : Nat) : (sectionCounter upper offset).toNat =
    2 ^ 64 * (upper % 2 ^ 64) + offset / blockSize % 2 ^ 64 := by
  have half : (256 : Nat) ^ 8 = 2 ^ 64 := by decide
  rw [sectionCounter, Block.toNat, Block.toBytes_ofBytes (by simp), BigEndian.decode_append, BigEndian.decode_encode,
    BigEndian.decode_encode, BigEndian.length_encode, half]

/-- The generation of a section itself changes nothing in its counter. -/
theorem generationCounter_self (upper : Nat) : generationCounter upper (upper % 2 ^ 32) = sectionCounter upper 0 := by
  have halves : encode 8 upper = encode 4 (upper / 2 ^ 32) ++ encode 4 upper := BigEndian.encode_add 4 4 upper
  have generation : encode 4 (upper % 2 ^ 32) = encode 4 upper := BigEndian.encode_mod 4 upper
  have front : (encode 8 upper).take 4 = encode 4 (upper / 2 ^ 32) := by
    rw [halves, List.take_left' (BigEndian.length_encode _ _)]
  have first : encode 8 (0 / blockSize) = Bytes.zeros 8 := rfl
  rw [generationCounter, sectionCounter, front, generation, first, ← halves]

/-- A section that starts at a whole block may count from its own start or from the start of the container. -/
theorem ctrAt_sectionCounter (key : Block) (upper : Nat) {start : Nat} (whole : blockSize ∣ start)
    (short : start < UInt64.size) (offset : Nat) (data : Bytes) :
    ctrAt key (sectionCounter upper start) offset data = ctrAt key (sectionCounter upper 0) (start + offset) data := by
  have counted : ∀ position, keystreamByte key (sectionCounter upper start) position =
      keystreamByte key (sectionCounter upper 0) (start + position) := by
    intro position
    obtain ⟨blocks, rfl⟩ := whole
    simp only [UInt64.size, blockSize] at short ⊢
    have number : (sectionCounter upper (16 * blocks)).toNat + position / 16 =
        (sectionCounter upper 0).toNat + (16 * blocks + position) / 16 := by
      simp only [toNat_sectionCounter, blockSize]
      omega
    simp only [keystreamByte, blockSize, number, Nat.mul_add_mod]
  apply List.ext_getElem?
  intro i
  simp only [getElem?_ctrAt, counted, Nat.add_assoc]

end Aes

/-! ## One generation -/

namespace BucketTree

variable {table : BucketTree Subsection} {generation size : Nat}

/-- The subsections leave no position below `size` out, and all of them have one generation. -/
structure Uniform (table : BucketTree Subsection) (size generation : Nat) : Prop where
  made : table.Made
  covered : ∀ position < size, ∃ entry last, table.Covers position entry last
  same : ∀ entry ∈ table.entries, entry.generation = generation

theorem Covers.mem_entries {E : Type} [BucketEntry E] {tree : BucketTree E} {position last : Nat} {entry : E}
    (covers : tree.Covers position entry last) : entry ∈ tree.entries := by
  obtain ⟨-, -, -, bucket, member, early, late, split, -⟩ := covers
  refine List.mem_flatMap.mpr ⟨bucket, member, ?_⟩
  simp [split]

theorem Uniform.find? (uniform : table.Uniform size generation) {position : Nat} (inside : position < size) :
    ∃ entry last, table.find? position = some (entry, last) ∧ entry.generation = generation ∧ position < last := by
  obtain ⟨entry, last, covers⟩ := uniform.covered position inside
  have found := uniform.made.wellLaid.find?_eq_some_iff_covers.mpr covers
  exact ⟨entry, last, found, uniform.same entry covers.mem_entries, lt_of_find? found⟩

end BucketTree

namespace Aes

/-- A string is the same in one piece and in two. -/
theorem ctrAt_take_drop (key base : Block) (offset count : Nat) (data : Bytes) :
    ctrAt key base offset (data.take count) ++ ctrAt key base (offset + count) (data.drop count) =
      ctrAt key base offset data := by
  by_cases more : count ≤ data.length
  · have long : (data.take count).length = count := by simp [more]
    conv_rhs => rw [← List.take_append_drop count data, ctrAt_append, long]
  -- nothing is left behind the first piece
  · rw [List.drop_eq_nil_of_le (by omega), List.take_of_length_le (by omega)]
    exact List.append_nil _

end Aes

/-- However subsections of one generation split a range, it is decrypted as a whole, unless a sum stops it. -/
theorem decryptGenerations_uniform (key : Block) (upper start : Nat) {table : BucketTree Subsection}
    {size generation : Nat} (uniform : table.Uniform size generation) (position : Nat) (data : Bytes)
    (inside : ∀ i < data.length, position + i < size)
    (runs : decryptGenerations key upper start table position data ≠ .error .overflow) :
    decryptGenerations key upper start table position data =
      .ok (ctrAt key (generationCounter upper generation) (start + position) data) := by
  have here : ∀ {position : Nat} {data : Bytes}, data ≠ [] → (∀ i < data.length, position + i < size) →
      ∃ entry last, table.find? position = some (entry, last) ∧ entry.generation = generation ∧ position < last :=
    fun nonempty inside => uniform.find? (inside 0 (List.length_pos_iff.mpr nonempty))
  -- each step goes up to the end of a subsection
  fun_induction decryptGenerations key upper start table position data with
  | case1 => rfl
  | case2 position data nonempty missing =>
    obtain ⟨entry, last, found, -⟩ := here nonempty inside
    cases missing.symm.trans found
  | case3 position data nonempty entry last found late =>
    exact absurd (BucketTree.lt_of_find? found) (Nat.not_lt_of_le late)
  | case4 => exact absurd rfl runs
  | case5 position data nonempty entry last found late fits count piece rest decrypted inductionHypothesis =>
    obtain ⟨_, _, again, same, before⟩ := here nonempty inside
    cases found.symm.trans again
    have behind := inductionHypothesis (fun i more => by
      have further := inside (count + i) (by simp only [List.length_drop] at more; omega)
      omega) (by simp [decrypted])
    have stop : start + last = start + position + count := by omega
    rw [behind, stop] at decrypted
    cases decrypted
    rw [← Aes.ctrAt_take_drop key _ (start + position) count data, ← same]
  | case6 position data nonempty entry last found late fits count error failed inductionHypothesis =>
    have behind := inductionHypothesis (fun i more => by
      have further := inside (count + i) (by simp only [List.length_drop] at more; omega)
      omega) (by rw [failed]; exact runs)
    cases behind.symm.trans failed

/-! ## Storages -/

/-- With the generation of the section in all subsections, a node with a table is read like one without, and then
    stops if a piece starts at a place of more than 64 bits. -/
theorem read_generations {inner : Storage} (key : Block) (upper : Nat) {start : Nat} (whole : blockSize ∣ start)
    (short : start < UInt64.size) {table : BucketTree Subsection} (uniform : table.Uniform inner.size (upper % 2 ^ 32))
    (offset length : Nat) : (Storage.decrypt inner (.generations key upper start table)).read offset length = (do
      let plain ← (Storage.decrypt inner (.ctr key (sectionCounter upper start))).read offset length
      if table.Overflows start offset plain.length then throw .overflow else return plain) := by
  have laid := uniform.made.wellLaid
  have decrypted : ∀ session bytes, offset + length ≤ inner.size →
      (inner.read offset length).result session = .ok bytes → decryptGenerations key upper start table offset bytes =
        if table.Overflows start offset bytes.length then .error .overflow
        else .ok (ctrAt key (sectionCounter upper start) offset bytes) := by
    intro session bytes inside read
    have long := inner.read_yields offset length session bytes read
    have all : ∀ i < bytes.length, offset + i < inner.size := fun i before => by omega
    have stops := decryptGenerations_eq_overflow_iff key upper start laid offset bytes
    split
    · next overflows => exact stops.mpr overflows
    · next fits =>
      have runs := mt stops.mp fits
      rw [decryptGenerations_uniform key upper start uniform offset bytes all runs, Aes.generationCounter_self,
        Aes.ctrAt_sectionCounter key upper whole short]
  simp only [Storage.read, ranged]
  by_cases outside : inner.size < offset + length
  · simp only [if_pos outside]
    rfl
  · simp only [if_neg outside, readDecrypted]
    split
    · rfl
    · rw [bind_assoc]
      apply SessionM.bind_congr
      intro session bytes read
      rw [decrypted session bytes (by omega) read, pure_bind, Aes.length_ctrAt]
      split
      all_goals rfl

theorem read_generations_eq {inner : Storage} (key : Block) (upper : Nat) {start : Nat} (whole : blockSize ∣ start)
    (short : start < UInt64.size) {table : BucketTree Subsection} (uniform : table.Uniform inner.size (upper % 2 ^ 32))
    {offset length : Nat} (fits : ¬table.Overflows start offset length) :
    (Storage.decrypt inner (.generations key upper start table)).read offset length =
      (Storage.decrypt inner (.ctr key (sectionCounter upper start))).read offset length := by
  rw [read_generations key upper whole short uniform]
  conv_rhs => rw [← bind_pure (Storage.read _ _ _)]
  apply SessionM.bind_congr
  intro session plain read
  have long := Storage.read_yields _ offset length session plain read
  exact if_neg fun overflows => fits (overflows.mono long)

/-- The start of a section may stand in its counter or be added to the offsets. And a node whose subsections all have
    the generation of the section is read, from every session, like the node that knows no generations, if no place in
    the container has more than 64 bits or at least no piece of the range starts at such a place. Where one does, the
    read has fetched the same bytes and stops, while the other node counts on. -/
theorem counters_agree (key : Block) (upper : Nat) {start : Nat} (whole : blockSize ∣ start)
    (short : start < UInt64.size) :
    (∀ offset data, ctrAt key (sectionCounter upper start) offset data =
      ctrAt key (sectionCounter upper 0) (start + offset) data) ∧
    ∀ (inner : Storage) (table : BucketTree Subsection), table.Uniform inner.size (upper % 2 ^ 32) →
      ∀ offset length,
        (start + inner.size ≤ UInt64.size ∨ ¬table.Overflows start offset length →
          (Storage.decrypt inner (.generations key upper start table)).read offset length =
            (Storage.decrypt inner (.ctr key (sectionCounter upper start))).read offset length) ∧
        (Storage.decrypt inner (.generations key upper start table)).read offset length = do
          let plain ← (Storage.decrypt inner (.ctr key (sectionCounter upper start))).read offset length
          if table.Overflows start offset plain.length then throw .overflow else return plain := by
  refine ⟨Aes.ctrAt_sectionCounter key upper whole short, fun inner table uniform offset length =>
    ⟨fun fits => ?_, read_generations key upper whole short uniform offset length⟩⟩
  by_cases inside : offset + length ≤ inner.size
  · exact read_generations_eq key upper whole short uniform
      (fits.elim (fun small => BucketTree.not_overflows small inside) id)
  -- both nodes refuse a range that they do not have
  · simp only [Storage.read, ranged]
    rw [if_pos (by omega), if_pos (by omega)]

/-- Two subsections of one generation, the second of which starts inside a block. -/
def splitSubsections : BucketTree Subsection := ⟨[⟨0, 24, [⟨0, 2⟩, ⟨5, 2⟩]⟩], 24⟩

theorem splitSubsections_uniform : splitSubsections.Uniform 24 2 where
  made := .listed (show BucketTree.ofEntries [⟨0, 2⟩, ⟨5, 2⟩] 24 = .ok splitSubsections from rfl)
  covered position inside := by
    by_cases front : position < 5
    · exact ⟨⟨0, 2⟩, 5, inside, Nat.zero_le _, front, _, .head _, [], [⟨5, 2⟩], rfl, rfl⟩
    · exact ⟨⟨5, 2⟩, 24, inside, Nat.le_of_not_lt front, inside, _, .head _, [⟨0, 2⟩], [], rfl, rfl⟩
  same := by simp [BucketTree.entries, splitSubsections]

/-- A read over the end of the first subsection. Near the end of all places the same read still succeeds, and one that
    starts behind it stops. -/
theorem counters_agree_split :
    let key := Block.ofNat 9
    let inner := Storage.ofBytes (List.replicate 24 7)
    let listed := fun start => Storage.decrypt inner (.generations key 0x700000002 start splitSubsections)
    let counted := fun start => Storage.decrypt inner (.ctr key (sectionCounter 0x700000002 start))
    let far := 2 ^ 64 - 0x10
    blockSize ∣ 0x20 ∧ 0x20 < UInt64.size ∧ blockSize ∣ far ∧ far < UInt64.size ∧
    splitSubsections.Uniform inner.size (0x700000002 % 2 ^ 32) ∧ 0x20 + inner.size ≤ UInt64.size ∧
    ctrAt key (sectionCounter 0x700000002 0x20) 3 [1, 2] = ctrAt key (sectionCounter 0x700000002 0) (0x20 + 3) [1, 2] ∧
    (listed 0x20).read 3 10 = (counted 0x20).read 3 10 ∧
    ¬splitSubsections.Overflows far 3 10 ∧ (listed far).read 3 10 = (counted far).read 3 10 ∧
    splitSubsections.Overflows far 16 4 ∧ ((listed far).read 16 4).result {} = .error .overflow := by
  intro key inner listed counted far
  have whole : blockSize ∣ 0x20 := ⟨2, rfl⟩
  have short : 0x20 < UInt64.size := by decide
  have farWhole : blockSize ∣ far := ⟨2 ^ 60 - 1, rfl⟩
  have farShort : far < UInt64.size := by decide
  have uniform : splitSubsections.Uniform inner.size (0x700000002 % 2 ^ 32) := splitSubsections_uniform
  have small : 0x20 + inner.size ≤ UInt64.size := by decide
  -- a scan of the entries finds what the search does, and can be evaluated
  have scan := uniform.made.wellLaid.looksUp.scan
  have fits : ¬splitSubsections.Overflows far 3 10 := by
    simp only [BucketTree.Overflows, scan]
    decide
  have overflows : splitSubsections.Overflows far 16 4 := by
    simp only [BucketTree.Overflows, scan]
    decide
  obtain ⟨sums, read⟩ := counters_agree key 0x700000002 whole short
  obtain ⟨-, farRead⟩ := counters_agree key 0x700000002 farWhole farShort
  have plain : ((counted far).read 16 4).result {} =
      .ok (ctrAt key (sectionCounter 0x700000002 far) 16 [7, 7, 7, 7]) := rfl
  have stopped : ((listed far).read 16 4).result {} = .error .overflow := by
    rw [(farRead inner splitSubsections uniform 16 4).2, SessionM.result_bind_ok plain, Aes.length_ctrAt]
    exact congrArg (SessionM.result · {}) (if_pos overflows)
  exact ⟨whole, short, farWhole, farShort, uniform, small, sums 3 [1, 2],
    (read inner splitSubsections uniform 3 10).1 (.inl small), fits,
    (farRead inner splitSubsections uniform 3 10).1 (.inr fits), overflows, stopped⟩

end SealedContent
