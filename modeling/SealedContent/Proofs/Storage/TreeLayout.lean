import Mathlib.Data.List.Chain
import SealedContent.Proofs.Storage.Lookup
import SealedContent.Proofs.Windows

/-! # The layout of bucket trees

What the check of a layout accepts, without the check: buckets over ranges that are not empty, each of them ending
before the next one starts and the last one inside the tree, and entries inside their buckets in increasing order
(`BucketTree.Arranged`). `BucketTree.wellLaid_iff` says that it accepts exactly these trees, and
`BucketTree.decode_eq_ok_iff_written` that a tree is decoded exactly from the tables that state it.
-/

namespace SealedContent.BucketTree

variable {E : Type} [BucketEntry E] {table : Bytes} {index offset count last : Nat} {bucket : Bucket E}
  {tree : BucketTree E}

/-- Buckets and entries that stand in order, each in its place. -/
structure Arranged (tree : BucketTree E) : Prop where
  nonempty : ∀ bucket ∈ tree.buckets, bucket.first < bucket.last
  apart : tree.buckets.IsChain fun bucket next => bucket.last ≤ next.first
  ends : ∀ bucket ∈ tree.buckets.getLast?, bucket.last ≤ tree.size
  inside : ∀ bucket ∈ tree.buckets, ∀ entry ∈ bucket.entries,
    bucket.first ≤ BucketEntry.offset entry ∧ BucketEntry.offset entry < bucket.last
  increasing : tree.entries.Pairwise fun entry later => BucketEntry.offset entry < BucketEntry.offset later

theorem WellLaid.arranged {tree : BucketTree E} (laid : tree.WellLaid) : tree.Arranged := by
  obtain ⟨apart, ordered⟩ := checkBuckets_ordered laid.buckets
  constructor
  case nonempty => exact fun bucket member => (ordered bucket member).1.nonempty
  case apart => exact apart.isChain
  case ends => exact fun bucket last => (ordered bucket (List.mem_of_getLast? last)).2
  case inside => exact fun bucket member => (ordered bucket member).1.inside
  case increasing =>
    refine List.pairwise_flatMap.mpr ⟨fun bucket member => (ordered bucket member).1.increasing, ?_⟩
    refine apart.imp_of_mem fun {bucket later} member laterMember behind entry among other otherAmong => ?_
    have before := (ordered bucket member).1.inside entry among
    have after := (ordered later laterMember).1.inside other otherAmong
    omega

theorem Arranged.ordered {tree : BucketTree E} (arranged : tree.Arranged) :
    ∀ bucket ∈ tree.buckets, Ordered bucket := fun bucket member =>
  ⟨arranged.nonempty bucket member, arranged.inside bucket member,
    (List.pairwise_flatMap.mp arranged.increasing).1 bucket member⟩

/-! ## The check -/

theorem checkEntries_ok (index : Nat) {bucket : Bucket E} {entries : List E} : ∀ {previous : Option Nat},
    (∀ entry ∈ entries, bucket.first ≤ BucketEntry.offset entry ∧ BucketEntry.offset entry < bucket.last) →
    (∀ offset, previous = some offset → ∀ entry ∈ entries, offset < BucketEntry.offset entry) →
    (entries.Pairwise fun entry later => BucketEntry.offset entry < BucketEntry.offset later) →
    ∃ final, checkEntries index bucket previous entries = .ok final ∧
      ∀ offset, final = some offset → previous = some offset ∨ offset < bucket.last := by
  induction entries with
  | nil => exact fun {previous} _ _ _ => ⟨previous, rfl, fun _ same => .inl same⟩
  | cons entry later inductionHypothesis =>
    intro previous inside behind increasing
    obtain ⟨here, inside⟩ := List.forall_mem_cons.mp inside
    obtain ⟨first, increasing⟩ := List.pairwise_cons.mp increasing
    have fresh : previous.any (BucketEntry.offset entry ≤ ·) = false := by
      cases previous with
      | none => rfl
      | some offset => simpa using behind offset rfl entry (.head _)
    simp only [checkEntries, fresh]
    rw [if_neg (by omega), if_neg (by decide)]
    have behind : ∀ offset, some (BucketEntry.offset entry) = some offset →
        ∀ other ∈ later, offset < BucketEntry.offset other := by
      rintro _ ⟨⟩
      exact first
    obtain ⟨final, checked, bound⟩ := inductionHypothesis inside behind increasing
    refine ⟨final, checked, fun offset same => .inr ?_⟩
    obtain ⟨⟨⟩⟩ | inside := bound offset same
    · exact here.2
    · exact inside

-- The check carries the last offset it saw; the invariant is that it lies before what is left.
theorem checkBuckets_ok {size : Nat} {buckets : List (Bucket E)} : ∀ {index : Nat} {previous : Option Nat},
    (∀ bucket ∈ buckets, Ordered bucket) → (buckets.IsChain fun bucket next => bucket.last ≤ next.first) →
    (∀ bucket ∈ buckets.getLast?, bucket.last ≤ size) →
    (∀ offset, previous = some offset → ∀ bucket ∈ buckets.head?, offset < bucket.first) →
    checkBuckets size index previous buckets = .ok () := by
  induction buckets with
  | nil => exact fun _ _ _ _ => rfl
  | cons bucket rest inductionHypothesis =>
    intro index previous ordered apart ends behind
    obtain ⟨here, others⟩ := List.forall_mem_cons.mp ordered
    have nonempty := here.nonempty
    have limit : bucket.last ≤ (rest.head?.map Bucket.first).getD size := by
      cases rest with
      | nil => exact ends bucket rfl
      | cons next rest => exact (List.isChain_cons_cons.mp apart).1
    obtain ⟨final, checked, bound⟩ := checkEntries_ok index here.inside
      (fun offset same entry member => by
        have := behind offset same bucket rfl
        have := (here.inside entry member).1
        omega) here.increasing
    simp only [checkBuckets, checked]
    rw [if_neg (by omega)]
    refine inductionHypothesis others apart.tail (fun last there => ends last ?_) fun offset same next there => ?_
    · exact List.mem_getLast?_cons there
    · have before : offset < bucket.last := by
        obtain same | inside := bound offset same
        · have := behind offset same bucket rfl
          omega
        · exact inside
      cases rest with
      | nil => cases there
      | cons next rest =>
        cases there
        exact Nat.lt_of_lt_of_le before limit

/-- The check accepts the trees whose buckets and entries stand in order, and no others. -/
theorem wellLaid_iff {tree : BucketTree E} : tree.WellLaid ↔ tree.Arranged := by
  refine ⟨WellLaid.arranged, fun arranged => ?_⟩
  have fits : checkBuckets tree.size 0 none tree.buckets = .ok () :=
    checkBuckets_ok arranged.ordered arranged.apart arranged.ends nofun
  rw [WellLaid, checked, fits]
  rfl

/-! ## Written trees -/

/-- A bucket as the node with its number in a table states it, and its start as the root does. -/
structure WrittenBucket (table : Bytes) (index : Nat) (bucket : Bucket E) : Prop where
  first : table.fieldAt (nodeHeaderSize + index * 8) 8 = bucket.first
  count : table.fieldAt (nodeSize * (index + 1) + 4) 4 = bucket.entries.length
  last : table.fieldAt (nodeSize * (index + 1) + 8) 8 = bucket.last
  fitting : bucket.entries.length ≤ entriesPerNode E
  room : nodeSize * (index + 1) + nodeHeaderSize + bucket.entries.length * BucketEntry.size E ≤ table.length
  entry : ∀ j (inside : j < bucket.entries.length), BucketEntry.decode (table.window
    (nodeSize * (index + 1) + nodeHeaderSize + j * BucketEntry.size E) (BucketEntry.size E)) = bucket.entries[j]

/-- A tree of as few buckets as hold its entries, as a table states it. Numbers are signed. -/
structure WrittenIn (tree : BucketTree E) (table : Bytes) : Prop where
  room : nodeHeaderSize + tree.buckets.length * 8 ≤ table.length
  listed : table.fieldAt 4 4 = tree.buckets.length
  size : table.fieldAt 8 8 = tree.size
  positive : tree.size < 0x8000000000000000
  least : tree.buckets.length = (tree.entries.length + (entriesPerNode E - 1)) / entriesPerNode E
  fitting : tree.buckets.length ≤ bucketsPerRoot
  buckets : ∀ index (inside : index < tree.buckets.length), WrittenBucket table index tree.buckets[index]

theorem nodeHeader_ok (room : offset + nodeHeaderSize ≤ table.length)
    (counted : table.fieldAt (offset + 4) 4 = count) (ended : table.fieldAt (offset + 8) 8 = last)
    (few : count < 0x80000000) (positive : last < 0x8000000000000000) :
    nodeHeader table offset = .ok (count, last) := by
  simp only [nodeHeaderSize] at room
  simp only [nodeHeader, Bytes.numberAt_eq (show offset + 4 + 4 ≤ table.length by omega),
    Bytes.numberAt_eq (show offset + 8 + 8 ≤ table.length by omega), counted, ended, ok_bind]
  rw [if_neg (by omega)]
  rfl

theorem nodeHeader_eq_ok_iff : nodeHeader table offset = .ok (count, last) ↔
    offset + nodeHeaderSize ≤ table.length ∧ table.fieldAt (offset + 4) 4 = count ∧
      table.fieldAt (offset + 8) 8 = last ∧ count < 0x80000000 ∧ last < 0x8000000000000000 := by
  refine ⟨fun gives => ?_, fun ⟨room, counted, ended, few, positive⟩ => nodeHeader_ok room counted ended few positive⟩
  have bounds := nodeHeader_lt gives
  obtain ⟨listed, counted, gives⟩ := ok_of_bind gives
  obtain ⟨stop, ended, gives⟩ := ok_of_bind gives
  split at gives
  · cases gives
  · cases gives
    obtain ⟨-, rfl⟩ := Bytes.numberAt_eq_ok_iff.mp counted
    obtain ⟨room, rfl⟩ := Bytes.numberAt_eq_ok_iff.mp ended
    exact ⟨room, rfl, rfl, bounds⟩

theorem entriesPerNode_le (E : Type) [BucketEntry E] : entriesPerNode E ≤ 0x3FF0 := Nat.div_le_self _ _

theorem decodeBucket_written (written : WrittenBucket table index bucket)
    (listed : nodeHeaderSize + (index + 1) * 8 ≤ table.length) (positive : bucket.last < 0x8000000000000000) :
    decodeBucket table index = .ok bucket := by
  have room := written.room
  have few := entriesPerNode_le E
  have fitting := written.fitting
  have header := nodeHeader_ok (by omega) written.count written.last (by omega) positive
  have entries : ((List.range bucket.entries.length).mapM fun j => do
      return BucketEntry.decode (← table.bytesAt (nodeSize * (index + 1) + nodeHeaderSize + j * BucketEntry.size E)
        (BucketEntry.size E))) = (.ok bucket.entries : Except Error (List E)) := by
    refine mapM_range_ok fun j inside => ?_
    have within : (j + 1) * BucketEntry.size E ≤ bucket.entries.length * BucketEntry.size E :=
      Nat.mul_le_mul_right _ inside
    rw [Nat.succ_mul] at within
    rw [Bytes.bytesAt_eq (by omega), ok_bind, written.entry j inside]
    rfl
  simp only [decodeBucket, Bytes.numberAt_eq (show nodeHeaderSize + index * 8 + 8 ≤ table.length by omega),
    written.first, ok_bind, header, entries]
  rw [if_neg (by omega)]
  rfl

/-- A bucket is read exactly from its node. -/
theorem decodeBucket_eq_ok_iff : decodeBucket table index = .ok bucket ↔
    nodeHeaderSize + (index + 1) * 8 ≤ table.length ∧ WrittenBucket table index bucket ∧
      bucket.last < 0x8000000000000000 := by
  refine ⟨fun gives => ?_, fun ⟨listed, written, positive⟩ => decodeBucket_written written listed positive⟩
  obtain ⟨first, listed, gives⟩ := ok_of_bind gives
  obtain ⟨⟨count, last⟩, header, gives⟩ := ok_of_bind gives
  dsimp only at gives
  split at gives
  · cases gives
  · next few =>
    obtain ⟨entries, taken, gives⟩ := ok_of_bind gives
    cases gives
    obtain ⟨listed, rfl⟩ := Bytes.numberAt_eq_ok_iff.mp listed
    obtain ⟨room, counted, ended, -, positive⟩ := nodeHeader_eq_ok_iff.mp header
    obtain ⟨long, each⟩ := List.forall₂_iff_get.mp (mapM_eq_ok_iff.mp taken)
    rw [List.length_range] at long
    have entry : ∀ j (inside : j < entries.length),
        nodeSize * (index + 1) + nodeHeaderSize + (j + 1) * BucketEntry.size E ≤ table.length ∧
        BucketEntry.decode (table.window (nodeSize * (index + 1) + nodeHeaderSize + j * BucketEntry.size E)
          (BucketEntry.size E)) = entries[j] := by
      intro j inside
      have found := each j (by rwa [List.length_range, long]) inside
      simp only [List.get_eq_getElem, List.getElem_range] at found
      obtain ⟨raw, found, same⟩ := ok_of_bind found
      obtain ⟨within, rfl⟩ := Bytes.bytesAt_eq_ok_iff.mp found
      rw [Nat.succ_mul]
      exact ⟨by omega, Except.ok.inj same⟩
    refine ⟨by omega, ⟨rfl, counted.trans long, ended, long ▸ Nat.le_of_not_lt few, ?_,
      fun j inside => (entry j inside).2⟩, positive⟩
    -- the node reaches as far as its last entry
    cases entries with
    | nil => simpa using room
    | cons first later => exact (entry later.length (Nat.lt_succ_self _)).1

/-- A tree with entries is read exactly from the tables that state it, if it is laid out by the rules. -/
theorem decode_eq_ok_iff_written (some : 0 < count) :
    decode table count = .ok tree ↔ tree.WellLaid ∧ tree.entries.length = count ∧ tree.WrittenIn table := by
  rw [decode_eq_ok_iff]
  have nonempty : count ≠ 0 := by omega
  simp only [nonempty, false_and, false_or, ne_eq, not_false_eq_true, true_and]
  constructor
  · rintro ⟨few, root, nodes, held, laid⟩
    obtain ⟨long, each⟩ := List.forall₂_iff_get.mp (mapM_eq_ok_iff.mp nodes)
    rw [List.length_range] at long
    rw [long] at root few
    obtain ⟨-, listed, size, -, positive⟩ := nodeHeader_eq_ok_iff.mp root
    have bucket : ∀ index (inside : index < tree.buckets.length),
        nodeHeaderSize + (index + 1) * 8 ≤ table.length ∧ WrittenBucket table index tree.buckets[index] := by
      intro index inside
      have found := each index (by rwa [List.length_range, long]) inside
      rw [List.get_eq_getElem, List.get_eq_getElem, List.getElem_range] at found
      obtain ⟨listed, written, -⟩ := decodeBucket_eq_ok_iff.mp found
      exact ⟨listed, written⟩
    refine ⟨laid, held, ?_, listed, size, positive, held ▸ long.symm, few, fun index inside => (bucket index inside).2⟩
    -- there is a bucket, as there are entries
    cases buckets : tree.buckets with
    | nil => simp [entries, buckets] at held; omega
    | cons first later =>
      have reach := (bucket later.length (by rw [buckets]; exact Nat.lt_succ_self _)).1
      exact reach
  · rintro ⟨laid, rfl, written⟩
    have few := written.fitting
    have room := written.room
    have positive := written.positive
    simp only [bucketsPerRoot, nodeSize, nodeHeaderSize] at few
    rw [← written.least]
    refine ⟨written.fitting, nodeHeader_ok (by omega) written.listed written.size (by omega) positive, ?_, rfl, laid⟩
    refine mapM_range_ok fun index inside => decodeBucket_written (written.buckets index inside) (by omega) ?_
    have within := ((checkBuckets_ordered laid.buckets).2 _ (List.getElem_mem inside)).2
    omega

end SealedContent.BucketTree
