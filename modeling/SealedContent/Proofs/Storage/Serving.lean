import SealedContent.Proofs.Storage.ByteMap

/-! # Serving the bytes of a map

`Serves stops fetch map size` says that a fetch gives what a byte map has, all of a range or nothing. Only
where `stops` holds may it stop at a sum of more than 64 bits although the range is there. Each way of
serving a range keeps this, whatever pieces it fetches from below: blocks of caches and of verified data,
units of ciphers, subsections with a generation of their own, entries of a relocation table.
-/

namespace SealedContent

/-! ## Computations that succeed -/

section

variable {α β : Type}

@[simp] theorem ofExcept_eq (outcome : Except Error α) : (MonadExcept.ofExcept outcome : Except Error α) = outcome := by
  cases outcome <;> rfl

theorem toOption_eq_some_iff {outcome : Except Error α} {value : α} :
    outcome.toOption = some value ↔ outcome = .ok value := by
  cases outcome <;> simp [Except.toOption]

end

/-! ## Finding what is there -/

/-- What a computation gives is there, and what is there is given, unless the computation stops where it may. -/
def Finds {α : Type} (stops : Prop) (outcome : Except Error α) (found : Option α) : Prop :=
  outcome.toOption = found ∨ stops ∧ outcome = .error .overflow

namespace Finds

variable {α β : Type} {stops : Prop} {outcome : Except Error α} {found : Option α} {value : α}

theorem of_eq (same : outcome.toOption = found) : Finds stops outcome found := .inl same

theorem eq (finds : Finds False outcome found) : outcome.toOption = found :=
  finds.resolve_right fun stopped => stopped.1

theorem sound (finds : Finds stops outcome found) (gives : outcome = .ok value) : found = some value := by
  obtain rfl | ⟨-, stopped⟩ := finds
  · rw [gives]; rfl
  · cases gives.symm.trans stopped

theorem complete (finds : Finds stops outcome found) (there : found = some value) :
    outcome = .ok value ∨ stops ∧ outcome = .error .overflow :=
  finds.imp_left fun same => toOption_eq_some_iff.mp (same.trans there)

theorem bind {next : α → Except Error β} {further : α → Option β} (first : Finds stops outcome found)
    (rest : ∀ value, outcome = .ok value → found = some value → Finds stops (next value) (further value)) :
    Finds stops (outcome >>= next) (found.bind further) := by
  obtain rfl | ⟨may, rfl⟩ := first
  · cases outcome with
    | error error => exact .inl rfl
    | ok value => exact rest value rfl rfl
  · exact .inr ⟨may, rfl⟩

theorem bind_some {next : α → Except Error β} {further : Option β} (first : Finds stops outcome (some value))
    (rest : Finds stops (next value) further) : Finds stops (outcome >>= next) further :=
  first.bind fun _ _ found => Option.some.inj found ▸ rest

theorem bind_none (first : Finds stops outcome none) (next : α → Except Error β) :
    Finds stops (outcome >>= next) none := by
  show Finds stops _ (Option.bind (none : Option α) fun _ => none)
  exact first.bind fun _ _ found => nomatch found

theorem map (first : Finds stops outcome found) (change : α → β) :
    Finds stops (do return change (← outcome)) (found.map change) := by
  rw [Option.map_eq_bind]
  exact first.bind fun _ _ _ => .of_eq rfl

theorem mapM {action : α → Except Error β} {found : α → Option β} {items : List α}
    (each : ∀ item ∈ items, Finds stops (action item) (found item)) :
    Finds stops (items.mapM action) (items.mapM found) := by
  induction items with
  | nil => exact .of_eq rfl
  | cons first rest inductionHypothesis =>
    rw [List.mapM_cons, List.mapM_cons]
    refine (each first (by simp)).bind fun value _ _ => ?_
    exact (inductionHypothesis fun item member => each item (by simp [member])).bind fun values _ _ => .of_eq rfl

end Finds

/-! ## Ways of serving a range -/

/-- What is fetched from a storage of this size are the bytes of the map. -/
structure Serves (stops : Prop) (fetch : Fetch (Except Error)) (map : ByteMap) (size : Nat) : Prop where
  outside : ∀ position, size ≤ position → map position = none
  served : ∀ {offset length}, 0 < length → Finds stops (fetch offset length) (map.window? offset length)

namespace ByteMap

variable {map data hashes : ByteMap} {size blockSize offset length : Nat}

theorem window?_eq_none {i : Nat} (before : i < length) (gone : map (offset + i) = none) :
    map.window? offset length = none := by
  cases found : map.window? offset length with
  | none => rfl
  | some bytes =>
    have there := isSome_window?_iff.mp (Option.isSome_of_eq_some found) i before
    simp [gone] at there

theorem window?_none_of_imp {other : ByteMap}
    (implies : ∀ position, (other position).isSome → (map position).isSome)
    (gone : map.window? offset length = none) : other.window? offset length = none := by
  cases found : other.window? offset length with
  | none => rfl
  | some bytes =>
    have all := isSome_window?_iff.mp (Option.isSome_of_eq_some found)
    have there := isSome_window?_iff.mpr fun i before => implies _ (all i before)
    rw [gone] at there
    cases there

/-- Blocks that are there hold the bytes of the map. -/
theorem blockwise_eq (positive : 0 < blockSize)
    (outside : ∀ position, size ≤ position → map position = none)
    {block : Nat → Option Bytes} (sound : ∀ number bytes, block number = some bytes →
      map.window? (number * blockSize) (blockLength size blockSize number) = some bytes) (position : Nat) :
    blockwise blockSize block position =
      if (block (position / blockSize)).isSome then map position else none := by
  simp only [blockwise]
  cases there : block (position / blockSize) with
  | none => rfl
  | some bytes =>
    obtain ⟨long, all⟩ := window?_eq_some_iff.mp (sound _ _ there)
    have division := Nat.div_add_mod position blockSize
    have remainder := Nat.mod_lt position positive
    rw [Nat.mul_comm] at division
    simp only [blockLength] at long all
    -- the last block may be short: behind it neither the block nor the map has a byte
    by_cases inside : position < size
    · have found := all (position % blockSize) (by omega)
      rw [division] at found
      simp [found]
    · rw [outside position (by omega)]
      simp only [Option.bind_some, Option.isSome_some, if_true, List.getElem?_eq_none_iff]
      omega

theorem window?_getElem? {bytes : Bytes} {start count : Nat} (inside : start + count ≤ bytes.length) :
    window? (fun position => bytes[position]?) start count = some (bytes.window start count) :=
  window?_eq_some_iff.mpr ⟨Bytes.length_window inside, fun _ before => (Bytes.getElem?_window before).symm⟩

/-- A range of a string is cut out of the blocks of the string that it touches. -/
theorem cutRange_windows {bytes : Bytes} (positive : 0 < blockSize) (nonempty : 0 < length)
    (inside : offset + length ≤ bytes.length) :
    cutRange blockSize offset length ((touchedBlocks blockSize offset length).map fun number =>
      bytes.window (number * blockSize) (blockLength bytes.length blockSize number)) =
      bytes.window offset length := by
  have lengths : ∀ number block, some (bytes.window (number * blockSize)
      (blockLength bytes.length blockSize number)) = some block →
      block.length = blockLength bytes.length blockSize number := by
    rintro number block ⟨⟩
    simp only [blockLength, Bytes.window]
    rw [List.length_take, List.length_drop]
    omega
  have sound : ∀ number block, some (bytes.window (number * blockSize)
      (blockLength bytes.length blockSize number)) = some block →
      window? (fun position => bytes[position]?) (number * blockSize)
        (blockLength bytes.length blockSize number) = some block := by
    rintro number block ⟨⟩
    simp only [blockLength]
    by_cases start : number * blockSize ≤ bytes.length
    · exact window?_getElem? (by omega)
    · rw [show min blockSize (bytes.length - number * blockSize) = 0 by omega]
      simp [Bytes.window]
  -- position by position the blocks are the string again
  have same : (blockwise blockSize fun number => some (bytes.window (number * blockSize)
      (blockLength bytes.length blockSize number))) = fun position => bytes[position]? :=
    funext (@blockwise_eq (fun position => bytes[position]?) bytes.length blockSize positive
      (fun position outside => List.getElem?_eq_none outside) _ sound)
  have touched := window?_blockwise positive lengths nonempty inside
  rw [same, window?_getElem? inside] at touched
  have all := List.mapM_pure (m := Option) (l := touchedBlocks blockSize offset length) (f := fun number =>
    bytes.window (number * blockSize) (blockLength bytes.length blockSize number))
  simp only [Option.pure_def] at all
  rw [all, Option.map_some, Option.some.injEq] at touched
  exact touched.symm

end ByteMap

open ByteMap (window?_eq_none window?_none_of_imp window?_blockwise blockwise_eq mem_touchedBlocks
  length_of_window?)

section

variable {inner data hashes base patch : Fetch (Except Error)} {map dataMap hashMap baseMap patchMap : ByteMap}
  {stops : Prop} {size offset length : Nat}

theorem serves_ranged {body : Fetch (Except Error)}
    (outside : ∀ position, size ≤ position → map position = none)
    (inside : ∀ {offset length}, 0 < length → offset + length ≤ size →
      Finds stops (body offset length) (map.window? offset length)) :
    Serves stops (fun offset length => ranged size offset length (body offset length)) map size where
  outside := outside
  served {offset length} nonempty := by
    simp only [ranged]
    split
    -- outside, the last position of the range has no byte
    · rw [window?_eq_none (show length - 1 < length by omega) (outside _ (by omega))]
      exact .of_eq rfl
    · rw [if_neg (by omega)]
      exact inside nonempty (by omega)

/-! ### Blocks -/

theorem blockLength_pos {blockSize number : Nat} (positive : 0 < blockSize) (nonempty : 0 < length)
    (inside : offset + length ≤ size) (touched : number ∈ touchedBlocks blockSize offset length) :
    0 < blockLength size blockSize number := by
  have start := ((mem_touchedBlocks positive nonempty).mp touched).1
  simp only [blockLength]
  omega

theorem cachedOutcome_bytes (below : Serves stops inner map size) {blockSize : Nat} (positive : 0 < blockSize)
    (nonempty : 0 < length) (inside : offset + length ≤ size) :
    Finds stops (cachedOutcome blockSize size inner offset length)
      ((map.cached blockSize size).window? offset length) := by
  have same : map.cached blockSize size = ByteMap.blockwise blockSize fun number =>
      map.window? (number * blockSize) (blockLength size blockSize number) :=
    funext fun position => (blockwise_eq positive below.outside (fun _ _ found => found) position).symm
  rw [same, window?_blockwise positive (fun _ _ found => length_of_window? found) nonempty inside]
  have block : ∀ number ∈ touchedBlocks blockSize offset length,
      Finds stops (inner (number * blockSize) (blockLength size blockSize number)) _ := fun number touched =>
    below.served (blockLength_pos positive nonempty inside touched)
  have blocks : Finds stops _ _ := .mapM block
  exact blocks.map _

theorem accept_bytes (check : BlockCheck) {number : Nat} (fromData : Serves stops data dataMap size) {hashSize : Nat}
    (fromHashes : Serves stops hashes hashMap hashSize) (nonempty : 0 < blockLength size check.blockSize number) :
    Finds stops (check.accept size data hashes number)
      (ByteMap.accepted? check size dataMap hashMap number) := by
  simp only [BlockCheck.accept, BlockCheck.judge, BlockCheck.refuse, ByteMap.accepted?, bind_assoc, pure_bind]
  -- both sides fetch the block, then its hash, and decide on the same verdict
  refine (fromData.served nonempty).bind fun bytes _ _ => ?_
  refine (fromHashes.served (by decide)).bind fun hash _ _ => .of_eq ?_
  split <;> rfl

theorem verifiedOutcome_bytes (check : BlockCheck) (fromData : Serves stops data dataMap size) {hashSize : Nat}
    (fromHashes : Serves stops hashes hashMap hashSize) (positive : 0 < check.blockSize) (nonempty : 0 < length)
    (inside : offset + length ≤ size) :
    Finds stops (verifiedOutcome check size data hashes offset length)
      ((ByteMap.verified check size dataMap hashMap).window? offset length) := by
  simp only [verifiedOutcome]
  by_cases unchecked : check.policy = .off
  · have same : ByteMap.verified check size dataMap hashMap = dataMap := by
      funext position
      simp [ByteMap.verified, unchecked]
    rw [if_pos unchecked, same]
    exact fromData.served nonempty
  · -- what is accepted are the bytes of the data, so that the blocks make up a map
    have sound : ∀ number bytes, ByteMap.accepted? check size dataMap hashMap number = some bytes →
        dataMap.window? (number * check.blockSize) (blockLength size check.blockSize number) =
          some bytes := by
      intro number bytes accepted
      simp only [ByteMap.accepted?, Option.bind_eq_bind, Option.bind_eq_some_iff] at accepted
      obtain ⟨block, found, hash, -, same⟩ := accepted
      split at same
      · cases same
      · cases same; exact found
    have same : ByteMap.verified check size dataMap hashMap = ByteMap.blockwise check.blockSize
        (ByteMap.accepted? check size dataMap hashMap) := by
      funext position
      rw [blockwise_eq positive fromData.outside sound]
      simp [ByteMap.verified, unchecked]
    rw [if_neg unchecked, same, window?_blockwise positive
      (fun number bytes accepted => length_of_window? (sound number bytes accepted)) nonempty inside]
    have blocks : Finds stops _ _ := .mapM fun number touched =>
      accept_bytes check fromData fromHashes (blockLength_pos positive nonempty inside touched)
    exact blocks.map _

/-! ### Units -/

/-- A decryption of whole units of a storage is one of each unit under its number. -/
structure Unitwise (stops : Prop) (unit size : Nat) (decrypt : Nat → Bytes → Except Error Bytes)
    (plain : Nat → Bytes → Bytes) : Prop where
  length : ∀ number piece, piece.length = unit → (plain number piece).length = unit
  pieces : ∀ first (pieces : List Bytes), (∀ piece ∈ pieces, piece.length = unit) → (first + 1) * unit ≤ size →
    Finds stops (decrypt (first * unit) pieces.flatten)
      (some (pieces.zipIdx.map fun (piece, i) => plain (first + i) piece).flatten)

theorem window?_pieces (map : ByteMap) (unit first count : Nat) :
    map.window? (first * unit) (count * unit) =
      ((List.range' first count).mapM fun number => map.window? (number * unit) unit).map List.flatten := by
  induction count generalizing first with
  | zero => simp
  | succ count inductionHypothesis =>
    rw [Nat.succ_mul, Nat.add_comm, ByteMap.window?_add, List.range'_succ, List.mapM_cons,
      ← Nat.succ_mul, inductionHypothesis]
    cases map.window? (first * unit) unit with
    | none => rfl
    | some piece =>
      cases (List.range' (first + 1) count).mapM fun number => map.window? (number * unit) unit <;> rfl

theorem mapM_numbered (piece? : Nat → Option Bytes) (plain : Nat → Bytes → Bytes) (first count : Nat) :
    ∀ skipped, ((List.range' (first + skipped) count).mapM fun number =>
        (piece? number).map (plain number)) =
      ((List.range' (first + skipped) count).mapM piece?).map fun pieces =>
        (pieces.zipIdx skipped).map fun (piece, i) => plain (first + i) piece := by
  -- the units before are counted, since the rest of the list has numbers of its own
  induction count with
  | zero => exact fun _ => rfl
  | succ count inductionHypothesis =>
    intro skipped
    rw [List.range'_succ, List.mapM_cons, List.mapM_cons, Nat.add_assoc, inductionHypothesis]
    cases piece? (first + skipped) with
    | none => rfl
    | some piece => cases (List.range' (first + (skipped + 1)) count).mapM piece? <;> rfl

theorem decrypt_bytes (below : Serves stops inner map size) {unit : Nat} (positive : 0 < unit)
    {decrypt : Nat → Bytes → Except Error Bytes} {plain : Nat → Bytes → Bytes}
    (unitwise : Unitwise stops unit size decrypt plain) (first : Nat) {count : Nat} (nonempty : 0 < count)
    (inside : (first + 1) * unit ≤ size) :
    Finds stops (inner (first * unit) (count * unit) >>= decrypt (first * unit))
      (((List.range' first count).mapM fun number =>
        (map.window? (number * unit) unit).map (plain number)).map List.flatten) := by
  have numbered := mapM_numbered (fun number => map.window? (number * unit) unit) plain first count 0
  have fetched : Finds stops (inner (first * unit) (count * unit)) _ := below.served (Nat.mul_pos nonempty positive)
  rw [Nat.add_zero] at numbered
  rw [window?_pieces] at fetched
  rw [numbered]
  cases there : (List.range' first count).mapM fun number => map.window? (number * unit) unit with
  | none =>
    rw [there] at fetched
    exact fetched.bind_none _
  | some pieces =>
    have sized : ∀ piece ∈ pieces, piece.length = unit := by
      intro piece member
      obtain ⟨number, -, found⟩ := mem_of_mapM there member
      exact length_of_window? found
    rw [there] at fetched
    exact fetched.bind_some (unitwise.pieces first pieces sized inside)

theorem unit_inside (below : Serves stops inner map size) {unit : Nat} (positive : 0 < unit) {number : Nat}
    {piece : Bytes} (found : map.window? (number * unit) unit = some piece) : (number + 1) * unit ≤ size := by
  -- the last byte of the unit is one of the storage
  have last := ByteMap.isSome_window?_iff.mp (Option.isSome_of_eq_some found) (unit - 1) (by omega)
  by_cases inside : (number + 1) * unit ≤ size
  · exact inside
  · rw [Nat.succ_mul] at inside
    simp [below.outside (number * unit + (unit - 1)) (by omega)] at last

theorem window?_units (below : Serves stops inner map size) {unit : Nat} (positive : 0 < unit)
    {decrypt : Nat → Bytes → Except Error Bytes} {plain : Nat → Bytes → Bytes}
    (unitwise : Unitwise stops unit size decrypt plain) (nonempty : 0 < length) (inside : offset + length ≤ size) :
    (map.units unit plain).window? offset length =
      ((touchedBlocks unit offset length).mapM fun number =>
        (map.window? (number * unit) unit).map (plain number)).map (cutRange unit offset length) := by
  apply window?_blockwise positive _ nonempty inside
  intro number bytes decrypted
  obtain ⟨piece, found, rfl⟩ := Option.map_eq_some_iff.mp decrypted
  have fits := unit_inside below positive found
  rw [Nat.succ_mul] at fits
  rw [unitwise.length number piece (length_of_window? found), blockLength]
  omega

theorem readUnits_bytes (below : Serves stops inner map size) (short : size < UInt64.size) {unit : Nat}
    (positive : 0 < unit) (name : String) {decrypt : Nat → Bytes → Except Error Bytes} {plain : Nat → Bytes → Bytes}
    (unitwise : Unitwise stops unit size decrypt plain) (nonempty : 0 < length) (inside : offset + length ≤ size) :
    Finds stops (readUnits name unit size inner decrypt offset length)
      ((map.units unit plain).window? offset length) := by
  have ordered : offset / unit ≤ (offset + length - 1) / unit := Nat.div_le_div_right (by omega)
  have last : (offset + length + (unit - 1)) / unit = (offset + length - 1) / unit + 1 := by
    rw [← Nat.add_div_right _ positive]
    congr 1
    omega
  have division := Nat.div_add_mod offset unit
  rw [Nat.mul_comm] at division
  rw [window?_units below positive unitwise nonempty inside]
  simp only [readUnits]
  rw [last]
  by_cases outside : size < ((offset + length - 1) / unit + 1) * unit
  · -- the last unit is not there, on either side
    have gone : ((touchedBlocks unit offset length).mapM fun number =>
        (map.window? (number * unit) unit).map (plain number)) = none := by
      cases there : (touchedBlocks unit offset length).mapM fun number =>
          (map.window? (number * unit) unit).map (plain number) with
      | none => rfl
      | some blocks =>
        have touched : (offset + length - 1) / unit ∈ touchedBlocks unit offset length := by
          simp only [touchedBlocks]
          rw [List.mem_range'_1]
          omega
        have complete := isSome_mapM_iff.mp (Option.isSome_of_eq_some there) _ touched
        obtain ⟨bytes, decrypted⟩ := Option.isSome_iff_exists.mp complete
        obtain ⟨piece, found, -⟩ := Option.map_eq_some_iff.mp decrypted
        have fits := unit_inside below positive found
        omega
    rw [if_pos outside, gone]
    split
    all_goals exact .of_eq rfl
  · -- the range is widened to the units that it touches, and cut out of their plain text
    have count : ((offset + length - 1) / unit + 1) * unit - offset / unit * unit =
        ((offset + length - 1) / unit + 1 - offset / unit) * unit := by rw [Nat.sub_mul]
    have start : offset - offset / unit * unit = offset % unit := by omega
    have whole : (offset / unit + 1) * unit ≤ size :=
      Nat.le_trans (Nat.mul_le_mul_right unit (by omega)) (Nat.le_of_not_lt outside)
    have decrypted := decrypt_bytes below positive unitwise (offset / unit)
      (show 0 < (offset + length - 1) / unit + 1 - offset / unit by omega) whole
    rw [if_neg (by omega), if_neg outside, count, start]
    simp only [ofExcept_eq]
    have cut := decrypted.map fun plain => Bytes.window plain (offset % unit) length
    rw [bind_assoc, Option.map_map] at cut
    exact cut

/-! ### Ciphers -/

theorem unitwise_sector (key : Aes.XtsKey) (first : Nat) {unit : Nat} (positive : 0 < unit)
    (aligned : unit % Aes.blockSize = 0) (reach : stops ∨ first + size / unit ≤ UInt64.size) :
    Unitwise stops unit size (decryptSectors key unit first)
      (fun number sector => Aes.decryptSector key (first + number) sector) where
  length number sector whole := by
    rw [Aes.length_decryptSector key _ (Nat.dvd_of_mod_eq_zero (by rw [whole]; exact aligned)), whole]
  pieces number sectors whole inside := by
    have counted : number + 1 ≤ size / unit := (Nat.le_div_iff_mul_le positive).mpr inside
    simp only [decryptSectors, Nat.mul_div_cancel number positive]
    split
    · exact .inr ⟨reach.resolve_right (by omega), rfl⟩
    · rw [Aes.xtsDecrypt_flatten key (first + number) positive aligned whole]
      simp only [Nat.add_assoc, List.flatMap_def]
      exact .of_eq rfl

theorem unitwise_block (key : Aes.Block) :
    Unitwise stops Aes.blockSize size (fun _ => Aes.ecbDecrypt key)
      (fun _ block => (Aes.decryptBlock key (.ofBytes block)).toBytes) where
  length _ _ _ := rfl
  pieces _ blocks whole _ := by
    rw [Aes.ecbDecrypt_flatten key whole, List.flatMap_def]
    -- blocks are decrypted without regard to their numbers
    have numbered : blocks = blocks.zipIdx.map Prod.fst := (List.zipIdx_map_fst 0 blocks).symm
    conv_lhs => rw [numbered, List.map_map]
    exact .of_eq rfl

/-- The first piece goes up to the end of its subsection. -/
theorem decryptGenerations_eq (key : Aes.Block) (upper start : Nat) {table : BucketTree Subsection}
    {position last : Nat} {entry : Subsection} (covered : table.find? position = some (entry, last)) {data : Bytes}
    (nonempty : data ≠ []) : decryptGenerations key upper start table position data =
      if UInt64.size ≤ start + position then .error .overflow
      else do
        let rest ← decryptGenerations key upper start table last (data.drop (last - position))
        return Aes.ctrAt key (Aes.generationCounter upper entry.generation) (start + position)
          (data.take (last - position)) ++ rest := by
  have before := BucketTree.lt_of_find? covered
  rw [decryptGenerations, dif_neg nonempty, covered]
  dsimp only
  rw [dif_neg (by omega)]
  split
  · rfl
  · cases decryptGenerations key upper start table last (data.drop (last - position)) <;> rfl

/-- Up to the end that is found with a subsection, all bytes are under its generation. -/
theorem window?_subsection (key : Aes.Block) (upper start : Nat) {table : BucketTree Subsection}
    (laid : table.WellLaid) {position last : Nat} {entry : Subsection}
    (covered : table.find? position = some (entry, last)) {data : Bytes}
    (found : map.window? position data.length = some data) :
    (map.decrypted (.generations key upper start table)).window? position
      (data.take (last - position)).length = some (Aes.ctrAt key
        (Aes.generationCounter upper entry.generation) (start + position) (data.take (last - position))) := by
  obtain ⟨-, bytes⟩ := ByteMap.window?_eq_some_iff.mp found
  refine ByteMap.window?_eq_some_iff.mpr ⟨Aes.length_ctrAt .., fun i inside => ?_⟩
  rw [List.length_take] at inside
  have same := BucketTree.find?_stable laid covered (Nat.le_add_right position i) (by omega)
  rw [Aes.getElem?_ctrAt, List.getElem?_take_of_lt (by omega), ← bytes i (by omega), Nat.add_assoc]
  simp only [ByteMap.decrypted, same]

/-- Each piece is decrypted with the generation that holds at all its positions. -/
theorem decryptGenerations_bytes (key : Aes.Block) (upper : Nat) {start : Nat} {table : BucketTree Subsection}
    (laid : table.WellLaid) (reach : stops ∨ start + size ≤ UInt64.size) (map : ByteMap) (position : Nat)
    (data : Bytes) (found : map.window? position data.length = some data)
    (inside : position + data.length ≤ size) :
    Finds stops (decryptGenerations key upper start table position data)
      ((map.decrypted (.generations key upper start table)).window? position data.length) := by
  by_cases empty : data = []
  · rw [empty, decryptGenerations, dif_pos rfl]
    exact .of_eq rfl
  · have long := List.length_pos_iff.mpr empty
    cases covered : table.find? position with
    | none =>
      rw [decryptGenerations, dif_neg empty, covered, window?_eq_none long]
      · exact .of_eq rfl
      · simp [ByteMap.decrypted, covered]
    | some piece =>
      obtain ⟨entry, last⟩ := piece
      have before := BucketTree.lt_of_find? covered
      rw [decryptGenerations_eq key upper start covered empty]
      split
      · exact .inr ⟨reach.resolve_right (by omega), rfl⟩
      · have first := window?_subsection key upper start laid covered found
        -- the rest starts at the end of the subsection, unless the range ends before
        have rest : Finds stops (decryptGenerations key upper start table last (data.drop (last - position)))
            ((map.decrypted (.generations key upper start table)).window?
              (position + (data.take (last - position)).length) (data.drop (last - position)).length) := by
          by_cases more : last - position < data.length
          · have others := ByteMap.window?_drop found (Nat.le_of_lt more)
            rw [show position + (last - position) = last by omega] at others
            rw [List.length_take, Nat.min_eq_left (by omega), show position + (last - position) = last by omega]
            exact decryptGenerations_bytes key upper laid reach map last _ others (by rw [List.length_drop]; omega)
          · rw [List.drop_eq_nil_of_le (by omega), decryptGenerations, dif_pos rfl]
            exact .of_eq rfl
        have split : data.length = (data.take (last - position)).length +
            (data.drop (last - position)).length := by
          rw [← List.length_append, List.take_append_drop]
        rw [split, ByteMap.window?_add, first]
        exact rest.map _
termination_by data.length
decreasing_by rw [List.length_drop]; omega

theorem decrypted_outside (below : Serves stops inner map size) {cipher : StorageCipher}
    (wellMade : cipher.WellMade) (position : Nat) (outside : size ≤ position) :
    map.decrypted cipher position = none := by
  have units : ∀ {unit} (plain : Nat → Bytes → Bytes), 0 < unit →
      map.units unit plain position = none := by
    intro unit plain positive
    have division := Nat.div_add_mod position unit
    have remainder := Nat.mod_lt position positive
    rw [Nat.mul_comm] at division
    -- the unit around the position is not there as a whole
    show Option.bind (Option.map _ _) _ = none
    rw [window?_eq_none remainder (below.outside _ (by omega))]
    rfl
  cases cipher with
  | ctr key counter => simp [ByteMap.decrypted, below.outside position outside]
  | generations key upper start table =>
    simp only [ByteMap.decrypted, below.outside position outside, Option.map_none]
    split <;> rfl
  | xts key sectorSize first =>
    simp only [ByteMap.decrypted]
    split
    · exact units _ (Nat.pos_of_ne_zero wellMade)
    · rfl
  | ecb key => exact units _ (by decide)

theorem readDecrypted_bytes (below : Serves stops inner map size) (short : size < UInt64.size)
    {cipher : StorageCipher} (wellMade : cipher.WellMade) (reach : stops ∨ cipher.Fits size)
    (nonempty : 0 < length) (inside : offset + length ≤ size) :
    Finds stops (readDecrypted cipher size inner offset length)
      ((map.decrypted cipher).window? offset length) := by
  have fetched : Finds stops (inner offset length) (map.window? offset length) := below.served nonempty
  cases cipher with
  | ctr key counter =>
    simp only [readDecrypted]
    have same : (map.decrypted (.ctr key counter)).window? offset length =
        (map.window? offset length).map (Aes.ctrAt key counter offset) := by
      cases found : map.window? offset length with
      | none =>
        refine window?_none_of_imp (fun position there => ?_) found
        simpa [ByteMap.decrypted] using there
      | some data =>
        obtain ⟨long, bytes⟩ := ByteMap.window?_eq_some_iff.mp found
        refine ByteMap.window?_eq_some_iff.mpr ⟨by rw [Aes.length_ctrAt, long], fun i before => ?_⟩
        rw [Aes.getElem?_ctrAt, ← bytes i before]
        rfl
    rw [same]
    exact fetched.map _
  | generations key upper start table =>
    simp only [readDecrypted]
    have same : (map.decrypted (.generations key upper start table)).window? offset length =
        (map.window? offset length).bind fun _ =>
          (map.decrypted (.generations key upper start table)).window? offset length := by
      cases found : map.window? offset length with
      | none =>
        refine window?_none_of_imp (fun position there => ?_) found
        simp only [ByteMap.decrypted] at there
        split at there
        · rwa [Option.isSome_map] at there
        · cases there
      | some data => rfl
    rw [same]
    refine fetched.bind fun data _ found => ?_
    have long := length_of_window? found
    rw [← long] at found inside ⊢
    have decrypted := decryptGenerations_bytes key upper wellMade reach map offset data found inside
    rwa [ofExcept_eq]
  | xts key sectorSize first =>
    have positive : 0 < sectorSize := Nat.pos_of_ne_zero wellMade
    simp only [readDecrypted, ByteMap.decrypted]
    by_cases aligned : sectorSize % Aes.blockSize = 0
    · rw [if_pos aligned]
      exact readUnits_bytes below short positive _ (unitwise_sector key first positive aligned reach) nonempty inside
    -- nothing is decrypted where a sector is no whole number of blocks
    · have refused : ∀ start data, ∃ error, decryptSectors key sectorSize first start data = .error error := by
        intro start data
        simp only [decryptSectors, Aes.xtsDecrypt_misaligned key _ aligned]
        split
        all_goals exact ⟨_, rfl⟩
      rw [if_neg aligned, window?_eq_none nonempty rfl]
      simp only [readUnits, ofExcept_eq]
      split
      · exact .of_eq rfl
      split
      · exact .of_eq rfl
      refine .of_eq ?_
      generalize inner _ _ = fetched
      cases fetched with
      | error => rfl
      | ok data =>
        obtain ⟨error, failed⟩ := refused (offset / sectorSize * sectorSize) data
        show (decryptSectors _ _ _ _ _ >>= _).toOption = none
        rw [failed]
        rfl
  | ecb key => exact readUnits_bytes below short (by decide) _ (unitwise_block key) nonempty inside

/-! ### Relocation -/

theorem choose?_serves {baseSize patchSize : Nat} (entry : Relocation) (fromBase : Serves stops base baseMap baseSize)
    (fromPatch : Serves stops patch patchMap patchSize) (shortBase : baseSize < UInt64.size)
    (shortPatch : patchSize < UInt64.size) :
    (entry.choose? base patch = none ∧ entry.choose? baseMap patchMap = none) ∨
    ∃ source sourceMap sourceSize, entry.choose? base patch = some source ∧
      entry.choose? baseMap patchMap = some sourceMap ∧ Serves stops source sourceMap sourceSize ∧
      sourceSize < UInt64.size := by
  simp only [Relocation.choose?]
  split
  · exact .inr ⟨base, baseMap, baseSize, rfl, rfl, fromBase, shortBase⟩
  · exact .inr ⟨patch, patchMap, patchSize, rfl, rfl, fromPatch, shortPatch⟩
  · exact .inl ⟨rfl, rfl⟩

/-- Up to the end that is found with an entry, all bytes come from its source. -/
theorem window?_relocated {table : BucketTree Relocation} (laid : table.WellLaid) {last : Nat}
    {entry : Relocation} (covered : table.find? offset = some (entry, last)) {source : ByteMap}
    (known : entry.choose? baseMap patchMap = some source) (length : Nat) :
    (ByteMap.relocated table baseMap patchMap).window? offset (min (last - offset) length) =
      source.window? (entry.source + (offset - entry.offset)) (min (last - offset) length) := by
  have started : entry.offset ≤ offset := BucketTree.offset_le_of_find? covered
  apply ByteMap.window?_congr
  intro i inside
  have same := BucketTree.find?_stable laid covered (Nat.le_add_right offset i) (by omega)
  simp only [ByteMap.relocated, same, known, Option.bind_some]
  congr 1
  omega

/-- Each piece is fetched from the source of the entry that covers all its positions. -/
theorem readRelocated_bytes {baseSize patchSize : Nat} {table : BucketTree Relocation}
    (laid : table.WellLaid) (fromBase : Serves stops base baseMap baseSize)
    (fromPatch : Serves stops patch patchMap patchSize) (shortBase : baseSize < UInt64.size)
    (shortPatch : patchSize < UInt64.size) (offset length : Nat) :
    Finds stops (readRelocated table base patch offset length)
      ((ByteMap.relocated table baseMap patchMap).window? offset length) := by
  unfold readRelocated
  split
  · next empty => rw [empty]; exact .of_eq rfl
  · next nonempty =>
    have long : 0 < length := Nat.pos_of_ne_zero nonempty
    split
    · next missing =>
      rw [window?_eq_none long]
      · exact .of_eq rfl
      · simp [ByteMap.relocated, missing]
    · next entry last covered =>
      have before := BucketTree.lt_of_find? covered
      obtain ⟨unknown, unknownMap⟩ | ⟨source, sourceMap, sourceSize, known, knownMap, serves, short⟩ :=
        choose?_serves entry fromBase fromPatch shortBase shortPatch
      · rw [unknown, window?_eq_none long]
        · exact .of_eq rfl
        · simp [ByteMap.relocated, covered, unknownMap]
      · rw [known]
        dsimp only
        rw [dif_neg (by omega)]
        have taken : min (last - offset) length + (length - min (last - offset) length) = length := by omega
        have first := window?_relocated laid covered knownMap length
        conv => rhs; rw [← taken, ByteMap.window?_add, first]
        -- positions that no 64-bit number says lie behind every source
        by_cases far : UInt64.size ≤ entry.source + (offset - entry.offset)
        · have gone : sourceMap.window? (entry.source + (offset - entry.offset))
              (min (last - offset) length) = none :=
            window?_eq_none (i := 0) (by omega) (serves.outside _ (by omega))
          rw [if_pos far, gone]
          exact .of_eq rfl
        · rw [if_neg far]
          refine (serves.served (by omega)).bind fun bytes _ _ => ?_
          exact (readRelocated_bytes laid fromBase fromPatch shortBase shortPatch
            (offset + min (last - offset) length) (length - min (last - offset) length)).map (bytes ++ ·)
termination_by length
decreasing_by omega

end

end SealedContent
