import SealedContent.Proofs.Storage.Lookup

/-! # Lookups are linear scans

A tree that was decoded or made of entries finds at an offset what a scan of all its entries finds there
(`BucketTree.LooksUp`), and the reads that go through a table from range to range get further with each of them:
`BucketTree.lookups_scan`.
-/

namespace SealedContent

namespace BucketTree

variable {E : Type} [BucketEntry E] {tree : BucketTree E} {offset last : Nat} {entry : E}

/-- A tree as one of the two makers gives it. -/
inductive Made (tree : BucketTree E) : Prop where
  | decoded {table : Bytes} {count : Nat} (gives : decode table count = .ok tree)
  | listed {entries : List E} {size : Nat} (gives : ofEntries entries size = .ok tree)

theorem Made.wellLaid (made : tree.Made) : tree.WellLaid := by
  cases made with
  | decoded gives => exact (decode_wellLaid gives).1
  | listed gives => exact (checked_eq_ok_iff.mp gives).2

/-! ## Scans -/

/-- An entry is around an offset of the tree: its range goes up to the next entry of its bucket, or up to the end of
    the bucket. -/
def Covers (tree : BucketTree E) (offset : Nat) (entry : E) (last : Nat) : Prop :=
  offset < tree.size ∧ BucketEntry.offset entry ≤ offset ∧ offset < last ∧
    ∃ bucket ∈ tree.buckets, ∃ early late, bucket.entries = early ++ entry :: late ∧
      last = (late.head?.map BucketEntry.offset).getD bucket.last

/-- The offset lies in the range. -/
def around (offset : Nat) (range : E × Nat) : Bool := BucketEntry.offset range.1 ≤ offset && offset < range.2

/-- The first range around an offset, with all entries looked at one after the other. -/
def scan? (tree : BucketTree E) (offset : Nat) : Option (E × Nat) :=
  if offset < tree.size then tree.ranges.find? (around offset) else none

theorem around_iff {range : E × Nat} :
    around offset range = true ↔ BucketEntry.offset range.1 ≤ offset ∧ offset < range.2 := by
  simp [around]

theorem map_rangesUpTo (last : Nat) (entries : List E) : (rangesUpTo last entries).map Prod.fst = entries := by
  induction entries with
  | nil => rfl
  | cons entry later inductionHypothesis => rw [rangesUpTo, List.map_cons, inductionHypothesis]

theorem map_ranges (tree : BucketTree E) : tree.ranges.map Prod.fst = tree.entries := by
  simp only [ranges, entries, List.map_flatMap, map_rangesUpTo]

/-- What a lookup gives in a tree. -/
structure LooksUp (tree : BucketTree E) : Prop where
  /-- A lookup gives an entry and the end of its range exactly where the entry is around the offset. -/
  exact : ∀ offset entry last, tree.find? offset = some (entry, last) ↔ tree.Covers offset entry last
  /-- It gives nothing exactly where no entry is around the offset. -/
  absent : ∀ offset, tree.find? offset = none ↔ ∀ entry last, ¬ tree.Covers offset entry last
  /-- At most one of the ranges is around an offset. -/
  single : ∀ offset, (tree.ranges.filter (around offset)).length ≤ 1
  scan : ∀ offset, tree.find? offset = tree.scan? offset
  /-- Every entry has one range. -/
  entries : tree.ranges.map Prod.fst = tree.entries
  /-- Each range ends before the later ones start. -/
  apart : tree.ranges.Pairwise fun range later => range.2 ≤ BucketEntry.offset later.1
  inside : ∀ range ∈ tree.ranges, BucketEntry.offset range.1 < range.2 ∧ range.2 ≤ tree.size
  /-- What is found ends behind the offset. -/
  advances : ∀ offset entry last, tree.find? offset = some (entry, last) → offset < last ∧ last ≤ tree.size

namespace WellLaid

theorem covers_iff_mem (laid : tree.WellLaid) : tree.Covers offset entry last ↔
    (entry, last) ∈ tree.ranges ∧ BucketEntry.offset entry ≤ offset ∧ offset < last := by
  constructor
  · rintro ⟨-, started, before, bucket, member, split⟩
    exact ⟨List.mem_flatMap.mpr ⟨bucket, member, mem_rangesUpTo.mpr split⟩, started, before⟩
  · rintro ⟨member, started, before⟩
    have within := (laid.ranges_ordered.2 _ member).2
    obtain ⟨bucket, inBuckets, among⟩ := List.mem_flatMap.mp member
    exact ⟨Nat.lt_of_lt_of_le before within, started, before, bucket, inBuckets, mem_rangesUpTo.mp among⟩

theorem find?_eq_some_iff_covers (laid : tree.WellLaid) :
    tree.find? offset = some (entry, last) ↔ tree.Covers offset entry last :=
  laid.find?_eq_some_iff_mem.trans laid.covers_iff_mem.symm

/-- A second range around an offset would start before the first one ends. -/
theorem length_filter_around_le (laid : tree.WellLaid) (offset : Nat) :
    (tree.ranges.filter (around offset)).length ≤ 1 := by
  have apart := laid.ranges_ordered.1.filter (around offset)
  have all : ∀ range ∈ tree.ranges.filter (around offset), around offset range = true :=
    fun range member => (List.mem_filter.mp member).2
  generalize tree.ranges.filter (around offset) = found at apart all
  match found with
  | [] => exact Nat.zero_le 1
  | [_] => exact Nat.le_refl 1
  | first :: second :: _ =>
    have before := (around_iff.mp (all first (by simp))).2
    have started := (around_iff.mp (all second (by simp))).1
    have behind := List.rel_of_pairwise_cons apart (.head _)
    omega

theorem find?_eq_scan? (laid : tree.WellLaid) (offset : Nat) : tree.find? offset = tree.scan? offset := by
  rw [scan?]
  split
  · cases scanned : tree.ranges.find? (around offset) with
    | none =>
      rw [Option.eq_none_iff_forall_ne_some]
      intro range found
      obtain ⟨member, here⟩ := laid.find?_eq_some_iff_mem.mp found
      exact List.find?_eq_none.mp scanned range member (around_iff.mpr here)
    | some range =>
      exact laid.find?_eq_some_iff_mem.mpr
        ⟨List.mem_of_find?_eq_some scanned, around_iff.mp (List.find?_some scanned)⟩
  · next outside => exact find?_outside (Nat.le_of_not_lt outside)

theorem looksUp (laid : tree.WellLaid) : tree.LooksUp where
  exact _ _ _ := laid.find?_eq_some_iff_covers
  absent offset := by
    rw [Option.eq_none_iff_forall_ne_some]
    exact ⟨fun none entry last covers => none _ (laid.find?_eq_some_iff_covers.mpr covers),
      fun none range found => none _ _ (laid.find?_eq_some_iff_covers.mp found)⟩
  single := laid.length_filter_around_le
  scan := laid.find?_eq_scan?
  entries := map_ranges tree
  apart := laid.ranges_ordered.1
  inside := laid.ranges_ordered.2
  advances _ _ _ found :=
    ⟨lt_of_find? found, (laid.ranges_ordered.2 _ (laid.find?_eq_some_iff_mem.mp found).1).2⟩

end WellLaid

end BucketTree

/-! ## Progress -/

theorem Relocation.choose?_eq_some {α : Type} {entry : Relocation} {base patch source : α}
    (chosen : entry.choose? base patch = some source) : source = base ∨ source = patch := by
  simp only [choose?] at chosen
  split at chosen
  · exact .inl (Option.some.inj chosen).symm
  · exact .inr (Option.some.inj chosen).symm
  · cases chosen

/-- A read through relocations finds no range that ends where it stands. Only a source can report one. -/
theorem readRelocated_advances {table : BucketTree Relocation} {base patch : Fetch (Except Error)}
    {offset length last position : Nat}
    (fails : readRelocated table base patch offset length = .error (.format (.relocationEnd last position))) :
    ∃ start count, base start count = .error (.format (.relocationEnd last position)) ∨
      patch start count = .error (.format (.relocationEnd last position)) := by
  unfold readRelocated at fails
  split at fails
  · cases fails
  · next nonempty =>
    split at fails
    · cases fails
    · next entry stop covered =>
      have before := BucketTree.lt_of_find? covered
      split at fails
      · cases fails
      · next source chosen =>
        rw [dif_neg (Nat.not_le_of_lt before)] at fails
        dsimp only at fails
        split at fails
        · cases fails
        · cases piece : source (entry.source + (offset - entry.offset)) (min (stop - offset) length) with
          | error error =>
            rw [piece] at fails
            cases fails
            obtain rfl | rfl := Relocation.choose?_eq_some chosen
            · exact ⟨_, _, .inl piece⟩
            · exact ⟨_, _, .inr piece⟩
          | ok bytes =>
            cases rest : readRelocated table base patch (offset + min (stop - offset) length)
                (length - min (stop - offset) length) with
            | error error =>
              rw [piece, ok_bind, rest] at fails
              cases fails
              exact readRelocated_advances rest
            | ok others =>
              rw [piece, ok_bind, rest] at fails
              cases fails
termination_by length
decreasing_by omega

/-- A decryption by generations finds no subsection that ends where it stands. -/
theorem decryptGenerations_advances {key : Aes.Block} {upper start : Nat} {table : BucketTree Subsection}
    {position : Nat} {data : Bytes} {last other : Nat} :
    decryptGenerations key upper start table position data ≠ .error (.format (.subsectionEnd last other)) := by
  fun_induction decryptGenerations key upper start table position data with
  | case1 => nofun
  | case2 => nofun
  | case3 position data nonempty entry stop covered stalled =>
    exact absurd (BucketTree.lt_of_find? covered) (Nat.not_lt_of_le stalled)
  | case4 => nofun
  | case5 => nofun
  | case6 position data nonempty entry stop covered advances fits count error rest inductionHypothesis =>
    intro fails
    cases fails
    exact inductionHypothesis rest

namespace BucketTree

/-- A tree that was decoded or made of entries looks up what a scan of its entries gives, and the reads that go from
    range to range get further with each of them. -/
theorem lookups_scan :
    (∀ {E : Type} [BucketEntry E] (tree : BucketTree E), tree.Made → tree.LooksUp) ∧
    (∀ (table : BucketTree Relocation) (base patch : Fetch (Except Error)) (offset length last position : Nat),
      readRelocated table base patch offset length = .error (.format (.relocationEnd last position)) →
      ∃ start count, base start count = .error (.format (.relocationEnd last position)) ∨
        patch start count = .error (.format (.relocationEnd last position))) ∧
    (∀ (key : Aes.Block) (upper start : Nat) (table : BucketTree Subsection) (position : Nat) (data : Bytes)
      (last other : Nat),
      decryptGenerations key upper start table position data ≠ .error (.format (.subsectionEnd last other))) :=
  ⟨fun _ made => made.wellLaid.looksUp, fun _ _ _ _ _ _ _ => readRelocated_advances,
    fun _ _ _ _ _ _ _ _ => decryptGenerations_advances⟩

/-- Nothing is found in front of the first entry and behind the end, and each entry up to the next one. A report of a
    source passes through a read. -/
theorem lookups_scan_gap :
    let tree : BucketTree Relocation := ⟨[⟨3, 9, [⟨3, 0, 0⟩, ⟨5, 7, 1⟩]⟩], 9⟩
    let source : Fetch (Except Error) := fun _ _ => .error (.format (.relocationEnd 1 2))
    tree.Made ∧ tree.LooksUp ∧ tree.find? 2 = none ∧ tree.find? 4 = some (⟨3, 0, 0⟩, 5) ∧
      tree.find? 5 = some (⟨5, 7, 1⟩, 9) ∧ tree.find? 9 = none ∧
      readRelocated tree source source 4 1 = .error (.format (.relocationEnd 1 2)) ∧
      ∃ start count, source start count = .error (.format (.relocationEnd 1 2)) ∨
        source start count = .error (.format (.relocationEnd 1 2)) := by
  intro tree source
  have made : tree.Made := .listed (show ofEntries [⟨3, 0, 0⟩, ⟨5, 7, 1⟩] 9 = .ok tree from rfl)
  have looksUp : tree.LooksUp := lookups_scan.1 tree made
  have found : tree.find? 4 = some (⟨3, 0, 0⟩, 5) := by rw [looksUp.scan]; decide
  have fails : readRelocated tree source source 4 1 = .error (.format (.relocationEnd 1 2)) := by
    rw [readRelocated, found]
    rfl
  refine ⟨made, looksUp, ?_, found, ?_, ?_, fails, lookups_scan.2.1 tree source source 4 1 1 2 fails⟩
  all_goals rw [looksUp.scan]; decide

end BucketTree

end SealedContent
