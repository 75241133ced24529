import Mathlib.Data.List.TakeDrop
import Mathlib.Data.List.TakeWhile
import SealedContent.Proofs.Storage.Graph

/-! # Ranges of bucket trees

In a tree that is laid out by the rules the ranges of the entries stand in order (`ranges_ordered`), so that two
searches by halves find an entry exactly inside its range: `BucketTree.find?_eq_some_iff_mem`. What is found at an
offset is found at every offset up to the end that was found with it: `BucketTree.find?_stable`.
-/

namespace SealedContent.BucketTree

variable {E : Type} [BucketEntry E]

/-! ## Searches by halves -/

section

/-- The search stops where the condition does. -/
theorem halve_eq {holds : Nat → Bool} {base size point : Nat} (leading : ∀ i, holds i = true ↔ i < point)
    (above : base ≤ point) (below : point ≤ base + size) : halve holds base size = point := by
  -- the point lies in the range that is left
  fun_induction halve holds base size with
  | case1 base size short here =>
    have := (leading base).mp here
    omega
  | case2 base size short here =>
    have := mt (leading base).mpr here
    omega
  | case3 base size long half inductionHypothesis =>
    by_cases front : holds (base + half) = true
    · have := (leading (base + half)).mp front
      rw [if_pos front]
      rw [dif_pos front] at inductionHypothesis
      exact inductionHypothesis (by omega) (by omega)
    · have := mt (leading (base + half)).mpr front
      rw [if_neg front]
      rw [dif_neg front] at inductionHypothesis
      exact inductionHypothesis above (by omega)

/-- Whatever the condition, it holds of the index in front of where the search stops. -/
theorem halve_holds {holds : Nat → Bool} {base size last : Nat} (start : base = 0 ∨ holds base = true)
    (stops : halve holds base size = last + 1) : holds last = true := by
  fun_induction halve holds base size with
  | case1 base size short here =>
    obtain rfl : base = last := by omega
    exact here
  | case2 base size short here =>
    obtain rfl | there := start
    · omega
    · exact absurd there here
  | case3 base size long half inductionHypothesis =>
    refine inductionHypothesis ?_ stops
    split
    · next front => exact .inr front
    · exact start

variable {α : Type} {p : α → Bool} {items before after : List α} {last : α} {next : Option α}

theorem partitionPoint_append (taken : ∀ item ∈ before, p item = true) (refused : ∀ item ∈ after, p item = false) :
    partitionPoint p (before ++ after) = before.length := by
  refine halve_eq (fun i => ?_) (Nat.zero_le _) (by simp)
  by_cases front : i < before.length
  · rw [List.getElem?_append_left front, List.getElem?_eq_getElem front]
    simp [front, taken]
  · rw [List.getElem?_append_right (by omega)]
    cases found : after[i - before.length]? with
    | none => simp [front]
    | some item => simp [front, refused item (List.mem_of_getElem? found)]

/-- What was found stands in the list, in front of the item that was found with it. -/
theorem lastBefore?_split (found : lastBefore? p items = some (last, next)) :
    ∃ before after, items = before ++ last :: after ∧ next = after.head? ∧ p last = true := by
  simp only [lastBefore?] at found
  split at found
  · cases found
  · next count stops =>
    obtain ⟨item, there, same⟩ := Option.map_eq_some_iff.mp found
    cases same
    refine ⟨items.take count, items.drop (count + 1), ?_, List.head?_drop.symm, ?_⟩
    · rw [← (List.getElem?_eq_some_iff.mp there).2, List.getElem_cons_drop, List.take_append_drop]
    · have holds := halve_holds (.inl rfl) stops
      rwa [there] at holds

theorem lastBefore?_append (taken : ∀ item ∈ before, p item = true) (lastTaken : p last = true)
    (refused : ∀ item ∈ after, p item = false) :
    lastBefore? p (before ++ last :: after) = some (last, after.head?) := by
  have front : ∀ item ∈ before ++ [last], p item = true := by
    intro item member
    obtain early | same := List.mem_append.mp member
    · exact taken item early
    · exact List.mem_singleton.mp same ▸ lastTaken
  have point := partitionPoint_append front refused
  rw [List.append_assoc, List.singleton_append, List.length_append, List.length_singleton] at point
  simp only [lastBefore?, point]
  rw [List.getElem?_append_right (Nat.le_refl _), List.getElem?_append_right (Nat.le_succ _), Nat.sub_self,
    Nat.succ_sub (Nat.le_refl _), Nat.sub_self, List.getElem?_cons_zero, List.getElem?_cons_succ,
    List.head?_eq_getElem?]
  rfl

end

/-! ## Layout -/

/-- A bucket whose entries start inside it, each behind the one before. -/
structure Ordered (bucket : Bucket E) : Prop where
  nonempty : bucket.first < bucket.last
  inside : ∀ entry ∈ bucket.entries,
    bucket.first ≤ BucketEntry.offset entry ∧ BucketEntry.offset entry < bucket.last
  increasing : bucket.entries.Pairwise fun entry later => BucketEntry.offset entry < BucketEntry.offset later

theorem checkEntries_ordered {index : Nat} {bucket : Bucket E} {entries : List E} :
    ∀ {previous final : Option Nat}, checkEntries index bucket previous entries = .ok final →
    (∀ entry ∈ entries, bucket.first ≤ BucketEntry.offset entry ∧ BucketEntry.offset entry < bucket.last) ∧
    (∀ entry ∈ entries, ∀ offset, previous = some offset → offset < BucketEntry.offset entry) ∧
    entries.Pairwise fun entry later => BucketEntry.offset entry < BucketEntry.offset later := by
  induction entries with
  | nil => exact fun _ => ⟨List.forall_mem_nil _, List.forall_mem_nil _, .nil⟩
  | cons head rest inductionHypothesis =>
    intro previous final checked
    simp only [checkEntries] at checked
    split at checked
    · cases checked
    · next range =>
      split at checked
      · cases checked
      · next fresh =>
        obtain ⟨inside, behind, increasing⟩ := inductionHypothesis checked
        have first : ∀ offset, previous = some offset → offset < BucketEntry.offset head := by
          rintro offset rfl
          simpa using fresh
        refine ⟨List.forall_mem_cons.mpr ⟨by omega, inside⟩, List.forall_mem_cons.mpr ⟨first, ?_⟩,
          List.pairwise_cons.mpr ⟨fun entry member => behind entry member _ rfl, increasing⟩⟩
        intro entry member offset same
        exact Nat.lt_trans (first offset same) (behind entry member _ rfl)

theorem checkBuckets_ordered {size : Nat} {buckets : List (Bucket E)} :
    ∀ {index : Nat} {previous : Option Nat}, checkBuckets size index previous buckets = .ok () →
    (buckets.Pairwise fun bucket later => bucket.last ≤ later.first) ∧
    ∀ bucket ∈ buckets, Ordered bucket ∧ bucket.last ≤ size := by
  induction buckets with
  | nil => exact fun _ => ⟨.nil, List.forall_mem_nil _⟩
  | cons bucket rest inductionHypothesis =>
    intro index previous checked
    simp only [checkBuckets] at checked
    split at checked
    · cases checked
    · next range =>
      split at checked
      · next entries =>
        obtain ⟨apart, ordered⟩ := inductionHypothesis checked
        obtain ⟨inside, -, increasing⟩ := checkEntries_ordered entries
        have here : Ordered bucket := ⟨by omega, inside, increasing⟩
        cases rest with
        | nil =>
          have within : bucket.last ≤ size := by simpa using (not_or.mp range).2
          exact ⟨List.pairwise_singleton _ _, List.forall_mem_singleton.mpr ⟨here, within⟩⟩
        | cons next rest =>
          -- the next bucket starts behind this one, and all others behind the next one
          obtain ⟨nextOrdered, within⟩ := ordered next (.head _)
          have nonempty := nextOrdered.nonempty
          have meets : bucket.last ≤ next.first := by simpa using (not_or.mp range).2
          refine ⟨List.pairwise_cons.mpr ⟨List.forall_mem_cons.mpr ⟨meets, fun later member => ?_⟩, apart⟩,
            List.forall_mem_cons.mpr ⟨⟨here, by omega⟩, ordered⟩⟩
          have behind := List.rel_of_pairwise_cons apart member
          omega
      · cases checked

theorem WellLaid.buckets {tree : BucketTree E} (laid : tree.WellLaid) :
    checkBuckets tree.size 0 none tree.buckets = .ok () := by
  simp only [WellLaid, checked] at laid
  cases checks : checkBuckets tree.size 0 none tree.buckets with
  | ok => rfl
  | error error => rw [checks] at laid; cases laid

/-! ## Encoded trees -/

theorem checked_eq_ok_iff {tree other : BucketTree E} : tree.checked = .ok other ↔ tree = other ∧ other.WellLaid := by
  constructor
  · intro gives
    have same : tree = other := by
      obtain ⟨-, -, same⟩ := ok_of_bind gives
      exact Except.ok.inj same
    exact ⟨same, same ▸ gives⟩
  · rintro ⟨rfl, laid⟩
    exact laid

theorem nodeHeader_lt {table : Bytes} {offset count last : Nat} (gives : nodeHeader table offset = .ok (count, last)) :
    count < 0x80000000 ∧ last < 0x8000000000000000 := by
  obtain ⟨_, -, gives⟩ := ok_of_bind gives
  obtain ⟨_, -, gives⟩ := ok_of_bind gives
  split at gives
  · cases gives
  · cases gives
    omega

/-- A decoded tree is one of no entries, or what the root and the nodes of its buckets say. -/
theorem decode_eq_ok_iff {table : Bytes} {count : Nat} {tree : BucketTree E} :
    decode table count = .ok tree ↔
      (count + (entriesPerNode E - 1)) / entriesPerNode E ≤ bucketsPerRoot ∧
      ((count = 0 ∧ tree = ⟨[], 0⟩) ∨ (count ≠ 0 ∧
        nodeHeader table 0 = .ok ((count + (entriesPerNode E - 1)) / entriesPerNode E, tree.size) ∧
        (List.range ((count + (entriesPerNode E - 1)) / entriesPerNode E)).mapM (decodeBucket table) =
          .ok tree.buckets ∧
        tree.entries.length = count ∧ tree.WellLaid)) := by
  simp only [decode]
  generalize (count + (entriesPerNode E - 1)) / entriesPerNode E = expected
  by_cases deep : bucketsPerRoot < expected
  · rw [if_pos deep]
    exact ⟨nofun, fun ⟨shallow, _⟩ => by omega⟩
  · rw [if_neg deep]
    by_cases empty : count = 0
    · subst empty
      constructor
      · rintro ⟨⟩
        exact ⟨by omega, .inl ⟨rfl, rfl⟩⟩
      · rintro ⟨-, ⟨-, rfl⟩ | ⟨nonempty, -⟩⟩
        · rfl
        · exact absurd rfl nonempty
    · rw [if_neg empty]
      constructor
      · intro gives
        obtain ⟨⟨listed, size⟩, root, gives⟩ := ok_of_bind gives
        dsimp only at gives
        split at gives
        · cases gives
        · next same =>
          obtain ⟨buckets, nodes, gives⟩ := ok_of_bind gives
          split at gives
          · cases gives
          · next held =>
            obtain ⟨rfl, laid⟩ := checked_eq_ok_iff.mp gives
            simp only [ne_eq, Decidable.not_not] at same held
            exact ⟨by omega, .inr ⟨empty, same ▸ root, nodes, held, laid⟩⟩
      · rintro ⟨-, ⟨none, -⟩ | ⟨-, root, nodes, held, laid⟩⟩
        · exact absurd none empty
        · simp only [entries] at held
          simp only [root, nodes, bind, Except.bind, held, ne_eq, not_true_eq_false, if_false]
          exact laid

/-- A decoded tree is laid out by the rules, and its size is a number of 63 bits. -/
theorem decode_wellLaid {table : Bytes} {count : Nat} {tree : BucketTree E}
    (decoded : decode table count = .ok tree) : tree.WellLaid ∧ tree.size < UInt64.size := by
  obtain ⟨-, ⟨-, rfl⟩ | ⟨-, root, -, -, laid⟩⟩ := decode_eq_ok_iff.mp decoded
  · exact ⟨rfl, Nat.zero_lt_of_lt (show 0 < UInt64.size by decide)⟩
  · exact ⟨laid, Nat.lt_trans (nodeHeader_lt root).2 (by decide)⟩

/-! ## Lookup -/

theorem find?_eq_some_iff {tree : BucketTree E} {offset last : Nat} {entry : E} :
    tree.find? offset = some (entry, last) ↔ ∃ bucket next after,
      lastBefore? (fun b => b.first ≤ offset) tree.buckets = some (bucket, next) ∧
      lastBefore? (fun e => BucketEntry.offset e ≤ offset) bucket.entries = some (entry, after) ∧
      last = (after.map BucketEntry.offset).getD bucket.last ∧ offset < tree.size ∧ offset < last := by
  simp only [find?]
  by_cases outside : tree.size ≤ offset
  · constructor
    · intro found
      simp [outside] at found
    · rintro ⟨_, _, _, _, _, _, inside, _⟩
      omega
  · simp only [outside, if_false, Option.pure_def, Option.bind_eq_bind, Option.bind_eq_some_iff]
    constructor
    · rintro ⟨⟨bucket, next⟩, inBuckets, ⟨chosen, after⟩, inEntries, found⟩
      split at found
      · cases found
      · cases found
        exact ⟨bucket, next, after, inBuckets, inEntries, rfl, by omega, by omega⟩
    · rintro ⟨bucket, next, after, inBuckets, inEntries, rfl, -, before⟩
      refine ⟨(bucket, next), inBuckets, (entry, after), inEntries, ?_⟩
      rw [if_neg (by dsimp only; omega)]

theorem offset_le_of_find? {tree : BucketTree E} {offset last : Nat} {entry : E}
    (found : tree.find? offset = some (entry, last)) : BucketEntry.offset entry ≤ offset := by
  obtain ⟨bucket, _, after, _, inEntries, _⟩ := find?_eq_some_iff.mp found
  obtain ⟨_, _, _, _, taken⟩ := lastBefore?_split inEntries
  simpa using taken

theorem lt_of_find? {tree : BucketTree E} {offset last : Nat} {entry : E}
    (found : tree.find? offset = some (entry, last)) : offset < last := by
  obtain ⟨_, _, _, _, _, _, _, before⟩ := find?_eq_some_iff.mp found
  exact before

theorem find?_outside {tree : BucketTree E} {offset : Nat} (outside : tree.size ≤ offset) :
    tree.find? offset = none := by
  simp [find?, outside]

/-! ## Ranges -/

/-- The entries of a bucket that ends at `last`, each with the end of its range: where the next one starts, or the
    end of the bucket. -/
def rangesUpTo (last : Nat) : List E → List (E × Nat)
  | [] => []
  | entry :: later => (entry, (later.head?.map BucketEntry.offset).getD last) :: rangesUpTo last later

/-- All entries of a tree with the ends of their ranges. -/
def ranges (tree : BucketTree E) : List (E × Nat) :=
  tree.buckets.flatMap fun bucket => rangesUpTo bucket.last bucket.entries

theorem mem_rangesUpTo {last : Nat} {entries : List E} {range : E × Nat} : range ∈ rangesUpTo last entries ↔
    ∃ early late, entries = early ++ range.1 :: late ∧ range.2 = (late.head?.map BucketEntry.offset).getD last := by
  induction entries with
  | nil => simp [rangesUpTo]
  | cons entry later inductionHypothesis =>
    rw [rangesUpTo, List.mem_cons, inductionHypothesis]
    constructor
    · rintro (rfl | ⟨early, late, rfl, stop⟩)
      · exact ⟨[], later, rfl, rfl⟩
      · exact ⟨entry :: early, late, rfl, stop⟩
    · rintro ⟨early, late, split, stop⟩
      obtain ⟨rfl, same⟩ | ⟨early, rfl, same⟩ := List.cons_eq_append_iff.mp split
      · cases same
        exact .inl (Prod.ext rfl stop)
      · exact .inr ⟨early, late, same, stop⟩

namespace Ordered

variable {bucket : Bucket E}

/-- The range of an entry is not empty and ends inside the bucket. -/
theorem range_inside (ordered : Ordered bucket) {range : E × Nat}
    (member : range ∈ rangesUpTo bucket.last bucket.entries) : bucket.first ≤ BucketEntry.offset range.1 ∧
      BucketEntry.offset range.1 < range.2 ∧ range.2 ≤ bucket.last := by
  obtain ⟨early, late, split, stop⟩ := mem_rangesUpTo.mp member
  have inside := ordered.inside
  have increasing := ordered.increasing
  rw [split] at inside increasing
  have here := inside range.1 (by simp)
  cases late with
  | nil =>
    have last : range.2 = bucket.last := stop
    omega
  | cons next late =>
    have last : range.2 = BucketEntry.offset next := stop
    have there := inside next (by simp)
    have further := List.rel_of_pairwise_cons (List.pairwise_append.mp increasing).2.1 (.head late)
    omega

theorem rangesUpTo_pairwise {last : Nat} {entries : List E}
    (increasing : entries.Pairwise fun entry later => BucketEntry.offset entry < BucketEntry.offset later) :
    (rangesUpTo last entries).Pairwise fun range later => range.2 ≤ BucketEntry.offset later.1 := by
  induction increasing with
  | nil => exact .nil
  | @cons entry later behind increasing inductionHypothesis =>
    refine List.pairwise_cons.mpr ⟨fun range member => ?_, inductionHypothesis⟩
    obtain ⟨early, late, rfl, -⟩ := mem_rangesUpTo.mp member
    -- the range of the entry ends where the first of the later ones starts
    cases early with
    | nil => exact Nat.le_refl _
    | cons next early =>
      exact Nat.le_of_lt (List.rel_of_pairwise_cons increasing (by simp))

end Ordered

namespace WellLaid

variable {tree : BucketTree E} {range : E × Nat}

/-- The ranges of a tree stand one behind the other, none of them empty and all of them inside the tree. -/
theorem ranges_ordered (laid : tree.WellLaid) :
    (tree.ranges.Pairwise fun range later => range.2 ≤ BucketEntry.offset later.1) ∧
    ∀ range ∈ tree.ranges, BucketEntry.offset range.1 < range.2 ∧ range.2 ≤ tree.size := by
  obtain ⟨apart, ordered⟩ := checkBuckets_ordered laid.buckets
  refine ⟨List.pairwise_flatMap.mpr ⟨fun bucket member => ?_, ?_⟩, fun range member => ?_⟩
  · exact Ordered.rangesUpTo_pairwise (ordered bucket member).1.increasing
  · refine apart.imp_of_mem fun {bucket later} member laterMember behind range among other otherAmong => ?_
    have ends := (ordered bucket member).1.range_inside among
    have starts := (ordered later laterMember).1.range_inside otherAmong
    omega
  · obtain ⟨bucket, member, among⟩ := List.mem_flatMap.mp member
    obtain ⟨here, within⟩ := ordered bucket member
    have inside := here.range_inside among
    omega

/-- The searches find an entry exactly at the offsets of its range. -/
theorem find?_eq_some_iff_mem (laid : tree.WellLaid) {offset : Nat} :
    tree.find? offset = some range ↔
      range ∈ tree.ranges ∧ BucketEntry.offset range.1 ≤ offset ∧ offset < range.2 := by
  constructor
  · intro found
    obtain ⟨bucket, next, after, inBuckets, inEntries, stop, -, before⟩ := find?_eq_some_iff.mp found
    obtain ⟨earlier, later, buckets, -⟩ := lastBefore?_split inBuckets
    obtain ⟨early, late, split, rfl, -⟩ := lastBefore?_split inEntries
    have member : bucket ∈ tree.buckets := by rw [buckets]; simp
    exact ⟨List.mem_flatMap.mpr ⟨bucket, member, mem_rangesUpTo.mpr ⟨early, late, split, stop⟩⟩,
      offset_le_of_find? found, before⟩
  · rintro ⟨member, started, before⟩
    have within := (laid.ranges_ordered.2 range member).2
    obtain ⟨bucket, inBuckets, among⟩ := List.mem_flatMap.mp member
    obtain ⟨apart, ordered⟩ := checkBuckets_ordered laid.buckets
    have inside := (ordered bucket inBuckets).1.range_inside among
    have increasing := (ordered bucket inBuckets).1.increasing
    obtain ⟨earlier, later, buckets⟩ := List.append_of_mem inBuckets
    obtain ⟨early, late, split, stop⟩ := mem_rangesUpTo.mp among
    rw [buckets] at apart
    rw [split] at increasing
    obtain ⟨-, apart, earlierApart⟩ := List.pairwise_append.mp apart
    obtain ⟨-, increasing, earlyIncreasing⟩ := List.pairwise_append.mp increasing
    refine find?_eq_some_iff.mpr ⟨bucket, later.head?, late.head?, ?_, ?_, stop, by omega, before⟩
    · rw [buckets]
      refine lastBefore?_append (fun other front => decide_eq_true ?_) (decide_eq_true (by omega)) fun other behind =>
        decide_eq_false ?_
      · have meets := earlierApart other front bucket (.head _)
        have nonempty := (ordered other (by rw [buckets]; simp [front])).1.nonempty
        omega
      · have meets := List.rel_of_pairwise_cons apart behind
        omega
    · rw [split]
      refine lastBefore?_append (fun other front => decide_eq_true ?_) (decide_eq_true started) fun other behind =>
        decide_eq_false ?_
      · have := earlyIncreasing other front range.1 (.head _)
        omega
      · -- the range ends where the first of the later entries starts
        obtain ⟨next, rest, rfl⟩ := List.exists_cons_of_ne_nil (List.ne_nil_of_mem behind)
        have last : range.2 = BucketEntry.offset next := stop
        obtain rfl | further := List.mem_cons.mp behind
        · omega
        · have := List.rel_of_pairwise_cons (List.pairwise_cons.mp increasing).2 further
          omega

end WellLaid

/-- What is found at an offset is found at every later one before its end. -/
theorem find?_stable {tree : BucketTree E} (laid : tree.WellLaid) {offset other last : Nat} {entry : E}
    (found : tree.find? offset = some (entry, last)) (after : offset ≤ other) (before : other < last) :
    tree.find? other = some (entry, last) := by
  obtain ⟨member, started, -⟩ := laid.find?_eq_some_iff_mem.mp found
  exact laid.find?_eq_some_iff_mem.mpr ⟨member, Nat.le_trans started after, before⟩

end SealedContent.BucketTree
