import SealedContent.Proofs.Storage.TreeLayout

/-! # Tables without gaps

The ranges of a list of items tile a range if each starts where the one before ends (`Tiles`). In a tree whose
buckets tile its range, and whose entries tile their buckets, an entry is found at every offset
(`BucketTree.Gapless.find?`), and the layout of the tree holds (`BucketTree.Gapless.wellLaid`), so that it is
decoded from the tables that state it: `BucketTree.decode_written`.
-/

namespace SealedContent

/-! ## Tilings -/

section

variable {α : Type} {key : α → Nat} {size start position : Nat} {items early late : List α} {item : α}

/-- Where a range ends that has these behind it: where the next one starts, or at the end of all. -/
def limit (key : α → Nat) (size : Nat) (later : List α) : Nat := (later.head?.map key).getD size

/-- The ranges of items, one behind the other and none of them empty, from an offset on up to `size`. -/
def Tiles (key : α → Nat) (size : Nat) : (start : Nat) → List α → Prop
  | start, [] => start = size
  | start, item :: later =>
    key item = start ∧ start < limit key size later ∧ Tiles key size (limit key size later) later

instance Tiles.decidable (key : α → Nat) (size : Nat) : ∀ start items, Decidable (Tiles key size start items)
  | start, [] => inferInstanceAs (Decidable (start = size))
  | start, item :: later =>
    have := Tiles.decidable key size (limit key size later) later
    inferInstanceAs (Decidable (key item = start ∧ start < limit key size later ∧
      Tiles key size (limit key size later) later))

theorem Tiles.start_eq (tiles : Tiles key size start items) : limit key size items = start := by
  cases items with
  | nil => exact tiles.symm
  | cons item later => exact tiles.1

theorem Tiles.split (tiles : Tiles key size start (early ++ late)) :
    start ≤ limit key size late ∧ Tiles key size (limit key size late) late := by
  induction early generalizing start with
  | nil =>
    rw [List.nil_append] at tiles
    rw [tiles.start_eq]
    exact ⟨Nat.le_refl _, tiles⟩
  | cons item early inductionHypothesis =>
    obtain ⟨-, nonempty, rest⟩ := tiles
    obtain ⟨further, tail⟩ := inductionHypothesis rest
    exact ⟨by omega, tail⟩

theorem Tiles.start_le (tiles : Tiles key size start items) : start ≤ size := by
  rw [← List.append_nil items] at tiles
  exact tiles.split.1

theorem Tiles.inside (tiles : Tiles key size start items) : ∀ item ∈ items, start ≤ key item ∧ key item < size := by
  intro item member
  obtain ⟨early, late, rfl⟩ := List.append_of_mem member
  obtain ⟨above, same, nonempty, rest⟩ := tiles.split
  exact ⟨above, Nat.lt_of_lt_of_le nonempty rest.start_le⟩

theorem Tiles.increasing (tiles : Tiles key size start items) :
    items.Pairwise fun item later => key item < key later := by
  induction items generalizing start with
  | nil => exact .nil
  | cons item later inductionHypothesis =>
    obtain ⟨same, nonempty, rest⟩ := tiles
    refine List.pairwise_cons.mpr ⟨fun other member => ?_, inductionHypothesis rest⟩
    have behind := (rest.inside other member).1
    omega

theorem Tiles.le_of_mem (tiles : Tiles key size start (early ++ late)) :
    ∀ item ∈ early, key item ≤ limit key size late := by
  induction early generalizing start with
  | nil => exact nofun
  | cons first early inductionHypothesis =>
    obtain ⟨same, nonempty, rest⟩ := tiles
    intro item member
    cases List.mem_cons.mp member with
    | inl first =>
      have further := Tiles.split rest
      rw [first, same]
      omega
    | inr later => exact inductionHypothesis rest item later

theorem Tiles.ge_of_mem (tiles : Tiles key size start (early ++ item :: late)) :
    ∀ other ∈ late, limit key size late ≤ key other := by
  intro other member
  obtain ⟨before, after, rfl⟩ := List.append_of_mem member
  rw [← List.singleton_append, ← List.append_assoc] at tiles
  exact tiles.split.2.split.1

/-- One of the ranges is around a position, and is found there. -/
theorem Tiles.locate (tiles : Tiles key size start items) (above : start ≤ position) (below : position < size) :
    ∃ early item late, items = early ++ item :: late ∧ key item ≤ position ∧ position < limit key size late ∧
      BucketTree.lastBefore? (fun other => key other ≤ position) items = some (item, late.head?) := by
  have around : ∃ early item late, items = early ++ item :: late ∧ key item ≤ position ∧
      position < limit key size late := by
    induction items generalizing start with
    | nil =>
      have empty : start = size := tiles
      omega
    | cons item later inductionHypothesis =>
      obtain ⟨same, nonempty, rest⟩ := tiles
      by_cases here : position < limit key size later
      · exact ⟨[], item, later, rfl, by omega, here⟩
      · obtain ⟨early, found, late, split, there⟩ := inductionHypothesis rest (by omega)
        exact ⟨item :: early, found, late, by rw [split, List.cons_append], there⟩
  obtain ⟨early, item, late, rfl, started, before⟩ := around
  refine ⟨early, item, late, rfl, started, before, BucketTree.lastBefore?_append ?_ (by simpa using started) ?_⟩
  · intro other member
    have earlier : key other ≤ key item := Tiles.le_of_mem tiles other member
    exact decide_eq_true (Nat.le_trans earlier started)
  · intro other member
    have behind : limit key size late ≤ key other := tiles.ge_of_mem other member
    exact decide_eq_false (by omega)

/-! ## Tilings end to end -/

theorem limit_append {middle : Nat} (meets : limit key size late = middle) (early : List α) :
    limit key size (early ++ late) = limit key middle early := by
  cases early with
  | nil => exact meets
  | cons item early => rfl

theorem Tiles.append {middle : Nat} (first : Tiles key middle start early) (rest : Tiles key size middle late) :
    Tiles key size start (early ++ late) := by
  induction early generalizing start with
  | nil =>
    have same : start = middle := first
    rw [same, List.nil_append]
    exact rest
  | cons item early inductionHypothesis =>
    obtain ⟨same, nonempty, others⟩ := first
    have meets := limit_append rest.start_eq early
    rw [List.cons_append, Tiles, meets]
    exact ⟨same, nonempty, inductionHypothesis others⟩

end

/-! ## Trees -/

namespace BucketTree

variable {E : Type} [BucketEntry E] {size start position index : Nat} {buckets early late : List (Bucket E)}
  {bucket : Bucket E} {tree : BucketTree E}

/-- Buckets tile a range, and the entries of each tile the bucket. -/
def TilesBuckets (size : Nat) : (start : Nat) → List (Bucket E) → Prop
  | start, [] => start = size
  | start, bucket :: later => bucket.first = start ∧ bucket.first < bucket.last ∧
      Tiles BucketEntry.offset bucket.last bucket.first bucket.entries ∧ TilesBuckets size bucket.last later

/-- Every offset of the tree's range has an entry. -/
def Gapless (tree : BucketTree E) : Prop := TilesBuckets tree.size 0 tree.buckets

theorem TilesBuckets.start_eq (tiles : TilesBuckets size start buckets) : limit Bucket.first size buckets = start := by
  cases buckets with
  | nil => exact tiles.symm
  | cons bucket later => exact tiles.1

theorem TilesBuckets.firsts (tiles : TilesBuckets size start buckets) : Tiles Bucket.first size start buckets := by
  induction buckets generalizing start with
  | nil => exact tiles
  | cons bucket later inductionHypothesis =>
    obtain ⟨same, nonempty, -, rest⟩ := tiles
    rw [Tiles, rest.start_eq]
    exact ⟨same, by omega, inductionHypothesis rest⟩

theorem TilesBuckets.entries (tiles : TilesBuckets size start buckets) :
    Tiles BucketEntry.offset size start (buckets.flatMap Bucket.entries) := by
  induction buckets generalizing start with
  | nil => exact tiles
  | cons bucket later inductionHypothesis =>
    obtain ⟨same, -, inside, rest⟩ := tiles
    rw [List.flatMap_cons, ← same]
    exact inside.append (inductionHypothesis rest)

theorem TilesBuckets.split (tiles : TilesBuckets size start (early ++ bucket :: late)) :
    TilesBuckets size bucket.first (bucket :: late) := by
  induction early generalizing start with
  | nil => exact ⟨rfl, tiles.2⟩
  | cons first early inductionHypothesis => exact inductionHypothesis tiles.2.2.2

theorem Gapless.entries (gapless : tree.Gapless) : Tiles BucketEntry.offset tree.size 0 tree.entries :=
  TilesBuckets.entries gapless

/-- The entry around an offset is found there, with the end of its range. -/
theorem Gapless.find? (gapless : tree.Gapless) (below : position < tree.size) :
    ∃ early entry late, tree.entries = early ++ entry :: late ∧ BucketEntry.offset entry ≤ position ∧
      position < limit BucketEntry.offset tree.size late ∧
      tree.find? position = some (entry, limit BucketEntry.offset tree.size late) := by
  -- the bucket around the offset first, then the entry around it in that bucket
  obtain ⟨early, bucket, late, split, started, before, inBuckets⟩ :=
    (TilesBuckets.firsts gapless).locate (Nat.zero_le _) below
  have tiles : TilesBuckets tree.size 0 (early ++ bucket :: late) := split ▸ gapless
  obtain ⟨-, -, inside, rest⟩ := tiles.split
  rw [rest.start_eq] at before
  obtain ⟨earlier, entry, later, entries, entryStarted, entryBefore, inEntries⟩ := inside.locate started before
  have meets : limit BucketEntry.offset tree.size (later ++ late.flatMap Bucket.entries) =
      limit BucketEntry.offset bucket.last later := limit_append rest.entries.start_eq later
  refine ⟨early.flatMap Bucket.entries ++ earlier, entry, later ++ late.flatMap Bucket.entries, ?_, entryStarted,
    ?_, ?_⟩
  · rw [BucketTree.entries, split, List.flatMap_append, List.flatMap_cons, entries]
    simp only [List.append_assoc, List.cons_append]
  · rw [meets]
    exact entryBefore
  · rw [meets]
    exact find?_eq_some_iff.mpr ⟨bucket, _, _, inBuckets, inEntries, rfl, below, entryBefore⟩

/-! ## Layout -/

theorem Gapless.at_mem (gapless : tree.Gapless) (member : bucket ∈ tree.buckets) :
    bucket.first < bucket.last ∧ Tiles BucketEntry.offset bucket.last bucket.first bucket.entries ∧
      bucket.last ≤ tree.size := by
  obtain ⟨early, late, split⟩ := List.append_of_mem member
  have tiles : TilesBuckets tree.size 0 (early ++ bucket :: late) := split ▸ gapless
  obtain ⟨-, nonempty, entries, rest⟩ := tiles.split
  exact ⟨nonempty, entries, rest.firsts.start_le⟩

theorem TilesBuckets.apart (tiles : TilesBuckets size start buckets) :
    buckets.IsChain fun bucket next => bucket.last ≤ next.first := by
  induction buckets generalizing start with
  | nil => exact .nil
  | cons bucket later inductionHypothesis =>
    obtain ⟨-, -, -, rest⟩ := tiles
    cases later with
    | nil => exact .singleton bucket
    | cons next later => exact List.isChain_cons_cons.mpr ⟨Nat.le_of_eq rest.1.symm, inductionHypothesis rest⟩

theorem Gapless.arranged (gapless : tree.Gapless) : tree.Arranged where
  nonempty _ member := (gapless.at_mem member).1
  apart := TilesBuckets.apart gapless
  ends _ last := (gapless.at_mem (List.mem_of_getLast? last)).2.2
  inside _ member := (gapless.at_mem member).2.1.inside
  increasing := gapless.entries.increasing

theorem Gapless.wellLaid (gapless : tree.Gapless) : tree.WellLaid := wellLaid_iff.mpr gapless.arranged

/-- Only an empty range has no entries. -/
theorem Gapless.eq_empty (gapless : tree.Gapless) (none : tree.entries = []) : tree = ⟨[], 0⟩ := by
  obtain ⟨buckets, size⟩ := tree
  have zero : 0 = size := by
    have tiles := gapless.entries
    rwa [none] at tiles
  cases buckets with
  | nil => rw [zero]
  | cons bucket later =>
    have nonempty : bucket.first < bucket.last := gapless.2.1
    have within : bucket.last ≤ size := (gapless.at_mem (.head _)).2.2
    omega

/-- A tree without gaps is read from a table as it was written. -/
theorem decode_written {table : Bytes} (gapless : tree.Gapless) (written : tree.WrittenIn table) :
    decode table tree.entries.length = .ok tree := by
  -- the bytes of a tree without entries are not looked at
  by_cases empty : tree.entries.length = 0
  · exact decode_eq_ok_iff.mpr ⟨written.least ▸ written.fitting, .inl ⟨empty,
      gapless.eq_empty (List.length_eq_zero_iff.mp empty)⟩⟩
  · exact (decode_eq_ok_iff_written (Nat.pos_of_ne_zero empty)).mpr ⟨gapless.wellLaid, rfl, written⟩

end BucketTree

end SealedContent
