import SealedContent.Aes.BlockLemmas
import SealedContent.Proofs.Keys.Files

/-! # Files of title keys

A dictionary is what its lookups give (`TitleKeys.ext_get?`), and the last write of an ID decides
(`KeyRing.get?_addTitleKeys`). Every line of an export is read as its entry again (`readTitleKeyLine_titleKeyLine`).
So an export is read back, and does not depend on how the dictionary was filled or in which order its entries are
listed before they are sorted: `KeyRing.titleKeys_file`.
-/

namespace SealedContent

/-! ## Dictionaries -/

namespace TitleKeys

variable {id : RightsId} {key : Aes.Block} {entries : List (RightsId × Aes.Block)}

/-- The order of a dictionary. -/
abbrev Ordered (entries : List (RightsId × Aes.Block)) : Prop :=
  entries.Pairwise fun first second => first.1.toNat < second.1.toNat

theorem id_injective {first second : RightsId} (same : first.toNat = second.toNat) : first = second := by
  rw [← Aes.Block.ofNat_toNat first, same, Aes.Block.ofNat_toNat]

theorem nodup_ids (ordered : Ordered entries) : (entries.map (·.1)).Nodup :=
  List.pairwise_map.mpr (ordered.imp fun before same => Nat.ne_of_lt before (congrArg _ same))

/-- Where no ID stands twice, an entry is found by its ID. -/
theorem lookup_eq_some_iff_mem (nodup : (entries.map (·.1)).Nodup) :
    entries.lookup id = some key ↔ (id, key) ∈ entries := by
  rw [List.lookup_eq_some_iff]
  constructor
  · rintro ⟨before, after, rfl, -⟩
    exact List.mem_append_right _ (.head _)
  · intro member
    obtain ⟨before, after, rfl⟩ := List.append_of_mem member
    refine ⟨before, after, rfl, fun other among => bne_iff_ne.mpr fun same => ?_⟩
    rw [List.map_append, List.nodup_append] at nodup
    exact nodup.2.2 _ (List.mem_map_of_mem among) _ (.head _) same.symm

theorem get?_eq_some_iff (keys : TitleKeys) : keys.get? id = some key ↔ (id, key) ∈ keys.entries := by
  constructor
  · intro found
    obtain ⟨⟨other, _⟩, there, rfl⟩ := Option.map_eq_some_iff.mp found
    obtain rfl : other = id := by simpa using List.find?_some there
    exact List.mem_of_find?_eq_some there
  · intro member
    have present : (keys.entries.find? fun entry => entry.1 == id).isSome :=
      List.find?_isSome.mpr ⟨(id, key), member, beq_self_eq_true id⟩
    obtain ⟨⟨other, value⟩, there⟩ := Option.isSome_iff_exists.mp present
    obtain rfl : other = id := by simpa using List.find?_some there
    have same := List.inj_on_of_nodup_map (nodup_ids keys.sorted) (List.mem_of_find?_eq_some there) member rfl
    rw [get?, there, same]
    rfl

/-- A dictionary is what its lookups give. -/
theorem ext_get? {first second : TitleKeys} (same : ∀ id, first.get? id = second.get? id) : first = second := by
  have entries : first.entries = second.entries := by
    have perm : first.entries.Perm second.entries := by
      refine (List.perm_ext_iff_of_nodup (nodup_ids first.sorted).of_map (nodup_ids second.sorted).of_map).mpr
        fun entry => ?_
      rw [← get?_eq_some_iff, ← get?_eq_some_iff, same]
    exact perm.eq_of_pairwise (fun _ _ _ _ before after => absurd before (Nat.lt_asymm after))
      first.sorted second.sorted
  cases first
  cases second
  cases entries
  rfl

theorem find?_insertEntry (id : RightsId) (key : Aes.Block) (entries : List (RightsId × Aes.Block))
    (other : RightsId) : (insertEntry id key entries).find? (·.1 == other) =
      if other = id then some (id, key) else entries.find? (·.1 == other) := by
  have skip {first : RightsId × Aes.Block} (differ : first.1 ≠ other) (rest : List (RightsId × Aes.Block)) :
      (first :: rest).find? (·.1 == other) = rest.find? (·.1 == other) :=
    List.find?_cons_of_neg (by simpa using differ)
  have stop {first : RightsId × Aes.Block} (same : first.1 = other) (rest : List (RightsId × Aes.Block)) :
      (first :: rest).find? (·.1 == other) = some first :=
    List.find?_cons_of_pos (by simpa using same)
  by_cases here : other = id
  · subst here
    rw [if_pos rfl]
    induction entries with
    | nil => exact stop rfl []
    | cons entry rest inductionHypothesis =>
      rw [insertEntry]
      split
      · exact stop rfl _
      · split
        · exact stop rfl _
        · next different =>
          rw [skip fun same => different (congrArg _ same.symm), inductionHypothesis]
  · rw [if_neg here]
    induction entries with
    | nil => exact skip (Ne.symm here) []
    | cons entry rest inductionHypothesis =>
      rw [insertEntry]
      split
      · exact skip (Ne.symm here) _
      · split
        · next same =>
          -- the entry that is replaced has the ID too
          rw [skip (Ne.symm here), skip (id_injective same ▸ Ne.symm here)]
        · rw [List.find?_cons, List.find?_cons, inductionHypothesis]

theorem get?_insert (keys : TitleKeys) (id : RightsId) (key : Aes.Block) (other : RightsId) :
    (keys.insert id key).get? other = if other = id then some key else keys.get? other := by
  rw [get?, insert, find?_insertEntry]
  split
  · rfl
  · rfl

end TitleKeys

/-! ## The line of a title key -/

/-- The line that stores an entry. -/
def titleKeyLine (entry : RightsId × Aes.Block) : String := assignment (Hex.upper entry.1.toBytes) entry.2.toBytes

section
variable (entry : RightsId × Aes.Block)

theorem block_ne_nil (block : Aes.Block) : block.toBytes ≠ [] :=
  List.ne_nil_of_length_pos (by rw [Aes.Block.length_toBytes]; decide)

theorem unbroken_titleKeyLine : '\n' ∉ (titleKeyLine entry).toList := unbroken_assignment fun _ => Text.isWord_upper

theorem lineContent?_titleKeyLine :
    lineContent? (titleKeyLine entry).toList = some (titleKeyLine entry).toList :=
  lineContent?_assignment (fun _ => Text.isWord_upper) (upper_ne_nil (block_ne_nil _)) (block_ne_nil _)

theorem readBlock?_eq {text : List Char} {block : Aes.Block}
    (digits : Text.trim text = (Hex.upper block.toBytes).toList) : readBlock? text = some block := by
  have exact16 := decodeExact?_upper block.toBytes
  rw [Aes.Block.length_toBytes] at exact16
  rw [readBlock?, digits, exact16, Option.map_some, Aes.Block.ofBytes_toBytes]

theorem readTitleKeyLine_titleKeyLine : readTitleKeyLine (titleKeyLine entry).toList = .ok entry := by
  have words : ∀ c ∈ (Hex.upper entry.1.toBytes).toList, Text.isWord c = true := fun _ => Text.isWord_upper
  have outside : ∀ c, Text.isWord c = true →
      (decide (c = ',') || decide (c = '=') || decide (c = '|')) = false := by
    intro c word
    obtain ⟨-, -, -, notEquals, notComma, -⟩ := Text.plain_of_isWord word
    have notBar : c ≠ '|' := by
      rintro rfl
      cases word
    simp [notEquals, notComma, notBar]
  rw [readTitleKeyLine, titleKeyLine, splitFirst?_assignment words outside (by decide) (by decide)]
  simp only [readBlock?_eq (trim_name words), readBlock?_eq (trim_digits entry.2.toBytes)]

end

/-- Lines of entries are read as these entries, in their order. -/
theorem titleKeyLines_map (entries : List (RightsId × Aes.Block)) :
    titleKeyLines ((entries.map titleKeyLine).map String.toList) =
      entries.zipIdx.map fun (entry, i) => (i + 1, .ok entry) := by
  rw [titleKeyLines, List.map_map, List.zipIdx_map, List.filterMap_map, ← List.filterMap_eq_map]
  refine List.filterMap_congr fun ⟨entry, i⟩ _ => ?_
  simp [lineContent?_titleKeyLine, readTitleKeyLine_titleKeyLine]

/-! ## Writes -/

namespace KeyRing

/-- The ring after writes of title keys, one after another. -/
def addTitleKeys (ring : KeyRing) (writes : List (RightsId × Aes.Block)) : KeyRing :=
  writes.foldl (fun ring write => ring.addTitleKey write.1 write.2) ring

/-- The last write of an ID decides. -/
theorem get?_addTitleKeys (ring : KeyRing) (writes : List (RightsId × Aes.Block)) (id : RightsId) :
    (ring.addTitleKeys writes).titleKeys.get? id = (writes.reverse.lookup id).or (ring.titleKeys.get? id) := by
  induction writes generalizing ring with
  | nil => rfl
  | cons write rest inductionHypothesis =>
    rw [addTitleKeys, List.foldl_cons, ← addTitleKeys, inductionHypothesis, List.reverse_cons, List.lookup_append,
      Option.or_assoc, addTitleKey, TitleKeys.get?_insert, List.lookup_cons]
    congr 1
    by_cases same : id = write.1
    · rw [if_pos same, same, beq_self_eq_true]
      rfl
    · rw [if_neg same, beq_false_of_ne same]
      rfl

theorem addTitleKeys_eq (ring : KeyRing) (writes : List (RightsId × Aes.Block)) :
    ring.addTitleKeys writes = { ring with titleKeys := (ring.addTitleKeys writes).titleKeys } := by
  induction writes generalizing ring with
  | nil => rfl
  | cons write rest inductionHypothesis => exact inductionHypothesis _

theorem addTitleKeys_entries (keys : TitleKeys) :
    empty.addTitleKeys keys.entries = { empty with titleKeys := keys } := by
  have same : (empty.addTitleKeys keys.entries).titleKeys = keys := by
    refine TitleKeys.ext_get? fun id => ?_
    ext key
    have reversed : (keys.entries.reverse.map (·.1)).Nodup := by
      rw [List.map_reverse]
      exact List.nodup_reverse.mpr (TitleKeys.nodup_ids keys.sorted)
    have nothing : empty.titleKeys.get? id = none := rfl
    rw [get?_addTitleKeys, nothing, Option.or_none, TitleKeys.lookup_eq_some_iff_mem reversed, List.mem_reverse,
      TitleKeys.get?_eq_some_iff]
  rw [addTitleKeys_eq, same]

/-! ## Files -/

theorem applyTitleKeyLines (ring : KeyRing) (entries : List (RightsId × Aes.Block)) :
    (entries.zipIdx.map fun (entry, i) => (i + 1, Except.ok entry)).foldl applyTitleKeyLine ring =
      ring.addTitleKeys entries := by
  rw [addTitleKeys, List.foldl_map]
  conv_rhs => rw [← List.zipIdx_map_fst 0 entries, List.foldl_map]
  rfl

theorem addTitleKeyLines (lines : List ((RightsId × Aes.Block) × Nat)) (report : TitleKeyReport) :
    (lines.map fun (entry, i) => (i + 1, Except.ok entry)).foldl TitleKeyReport.add report =
      { report with loaded := report.loaded + lines.length } := by
  induction lines generalizing report with
  | nil => rfl
  | cons line rest inductionHypothesis =>
    rw [List.map_cons, List.foldl_cons, inductionHypothesis, TitleKeyReport.add, List.length_cons]
    simp only [Nat.add_assoc, Nat.add_comm 1]

theorem exportTitleKeys_eq (ring : KeyRing) :
    ring.exportTitleKeys = String.join ((ring.titleKeys.entries.map titleKeyLine).map (· ++ "\n")) := by
  rw [exportTitleKeys, List.map_map]
  rfl

/-- What a listing of entries is sorted by: the bytes of their rights IDs. -/
def idOrder (first second : RightsId × Aes.Block) : Bool := decide (first.1.toBytes ≤ second.1.toBytes)

theorem idOrder_iff {first second : RightsId × Aes.Block} :
    idOrder first second = true ↔ first.1.toNat ≤ second.1.toNat := by
  rw [idOrder, decide_eq_true_iff, ← List.not_lt, ← Aes.Block.toNat_lt_toNat_iff, Nat.not_lt]

/-- The file of a listing: its entries sorted, one line each. -/
def titleKeyFile (listing : List (RightsId × Aes.Block)) : String :=
  String.join (((listing.mergeSort idOrder).map titleKeyLine).map (· ++ "\n"))

/-- A listing has every entry of a dictionary once, in any order. -/
structure Lists (listing : List (RightsId × Aes.Block)) (keys : TitleKeys) : Prop where
  nodup : (listing.map (·.1)).Nodup
  mem_iff : ∀ id key, (id, key) ∈ listing ↔ keys.get? id = some key

theorem Lists.mergeSort_eq {listing : List (RightsId × Aes.Block)} {keys : TitleKeys} (lists : Lists listing keys) :
    listing.mergeSort idOrder = keys.entries := by
  have perm : listing.Perm keys.entries := by
    refine (List.perm_ext_iff_of_nodup lists.nodup.of_map (TitleKeys.nodup_ids keys.sorted).of_map).mpr
      fun entry => ?_
    rw [lists.mem_iff, TitleKeys.get?_eq_some_iff]
  have sorted : (listing.mergeSort idOrder).Pairwise fun first second => idOrder first second = true := by
    refine List.pairwise_mergeSort (fun first second third => ?_) (fun first second => ?_) listing
    · simp only [idOrder_iff]
      exact Nat.le_trans
    · rw [Bool.or_eq_true, idOrder_iff, idOrder_iff]
      exact Nat.le_total ..
  have ordered : keys.entries.Pairwise fun first second => idOrder first second = true :=
    keys.sorted.imp fun before => idOrder_iff.mpr (Nat.le_of_lt before)
  refine ((List.mergeSort_perm ..).trans perm).eq_of_pairwise (fun first second among member before after => ?_)
    sorted ordered
  -- no ID stands twice, so that no two entries are level
  have level := Nat.le_antisymm (idOrder_iff.mp before) (idOrder_iff.mp after)
  exact List.inj_on_of_nodup_map (TitleKeys.nodup_ids keys.sorted)
    (((List.mergeSort_perm ..).trans perm).mem_iff.mp among) member (TitleKeys.id_injective level)

/-- An export read into an empty ring gives the dictionary back: every line is loaded and none is rejected. The
    file is the same for every ring with the same dictionary, whichever writes have filled it, and for every
    order in which the entries are listed before they are sorted. It has one line for each entry, and the rights
    IDs of the lines increase. -/
theorem titleKeys_file (ring : KeyRing) :
    let read := empty.importTitleKeys (Utf8.encode ring.exportTitleKeys)
    (read.report = .ok ⟨ring.titleKeys.size, []⟩ ∧ read.warnings = [] ∧
      read.ring = { empty with titleKeys := ring.titleKeys }) ∧
    (∀ other : KeyRing, (∀ id, other.titleKeys.get? id = ring.titleKeys.get? id) →
      other.exportTitleKeys = ring.exportTitleKeys) ∧
    (∀ (start : KeyRing) writes,
      (∀ id, (writes.reverse.lookup id).or (start.titleKeys.get? id) = ring.titleKeys.get? id) →
      (start.addTitleKeys writes).exportTitleKeys = ring.exportTitleKeys) ∧
    (∀ listing, Lists listing ring.titleKeys → titleKeyFile listing = ring.exportTitleKeys) ∧
    ∃ entries, Lists entries ring.titleKeys ∧
      ring.exportTitleKeys = String.join ((entries.map titleKeyLine).map (· ++ "\n")) ∧
      entries.Pairwise fun first second => first.1.toBytes < second.1.toBytes := by
  have unbroken : ∀ line ∈ ring.titleKeys.entries.map titleKeyLine, '\n' ∉ line.toList := by
    intro line member
    obtain ⟨entry, -, rfl⟩ := List.mem_map.mp member
    exact unbroken_titleKeyLine entry
  have same : ∀ other : KeyRing, (∀ id, other.titleKeys.get? id = ring.titleKeys.get? id) →
      other.exportTitleKeys = ring.exportTitleKeys := by
    intro other agree
    rw [exportTitleKeys_eq, exportTitleKeys_eq, TitleKeys.ext_get? agree]
  refine ⟨?_, same, fun start writes agree => same _ fun id => ?_, fun listing lists => ?_,
    ring.titleKeys.entries, ⟨TitleKeys.nodup_ids ring.titleKeys.sorted, fun id key => ?_⟩, exportTitleKeys_eq ring,
    ring.titleKeys.sorted.imp fun before => (Aes.Block.toNat_lt_toNat_iff ..).mp before⟩
  · simp only [importTitleKeys, exportTitleKeys_eq, textLines_join unbroken, titleKeyLines_map, addTitleKeyLines,
      applyTitleKeyLines, addTitleKeys_entries, if_true, List.map_nil, List.length_zipIdx, Nat.zero_add]
    exact ⟨rfl, trivial, trivial⟩
  · rw [get?_addTitleKeys, agree]
  · rw [titleKeyFile, lists.mergeSort_eq, exportTitleKeys_eq]
  · rw [TitleKeys.get?_eq_some_iff]

/-- Two entries, written in either order, and one of them overwritten. -/
theorem titleKeys_file_sample :
    let first : RightsId × Aes.Block := (.ofNat 1, .ofNat 5)
    let second : RightsId × Aes.Block := (.ofNat 0x100, .ofNat 0)
    let ring := empty.addTitleKeys [first, second]
    (∀ id, ([second, (.ofNat 1, .ofNat 9), first].reverse.lookup id).or (empty.titleKeys.get? id) =
      ring.titleKeys.get? id) ∧
    (empty.addTitleKeys [second, (.ofNat 1, .ofNat 9), first]).exportTitleKeys = ring.exportTitleKeys ∧
    Lists [second, first] ring.titleKeys ∧ titleKeyFile [second, first] = ring.exportTitleKeys ∧
    (∀ id, (empty.addTitleKeys [second, first]).titleKeys.get? id = ring.titleKeys.get? id) ∧
    (empty.addTitleKeys [second, first]).exportTitleKeys = ring.exportTitleKeys := by
  intro first second ring
  obtain ⟨-, same, refilled, listed, -⟩ := titleKeys_file ring
  obtain ⟨straight, overwritten, swapped⟩ : ring.titleKeys.entries = [first, second] ∧
      (empty.addTitleKeys [second, (.ofNat 1, .ofNat 9), first]).titleKeys.entries = [first, second] ∧
      (empty.addTitleKeys [second, first]).titleKeys.entries = [first, second] := by decide +kernel
  have writes (id : RightsId) : ([second, (.ofNat 1, .ofNat 9), first].reverse.lookup id).or
      (empty.titleKeys.get? id) = ring.titleKeys.get? id := by
    rw [← get?_addTitleKeys, TitleKeys.get?, TitleKeys.get?, overwritten, straight]
  have agree (id : RightsId) : (empty.addTitleKeys [second, first]).titleKeys.get? id = ring.titleKeys.get? id := by
    rw [TitleKeys.get?, TitleKeys.get?, swapped, straight]
  have lists : Lists [second, first] ring.titleKeys := by
    refine ⟨by decide, fun id key => ?_⟩
    rw [TitleKeys.get?_eq_some_iff, straight]
    exact (List.Perm.swap first second []).mem_iff
  exact ⟨writes, refilled empty _ writes, lists, listed _ lists, agree, same _ agree⟩

end KeyRing

end SealedContent
