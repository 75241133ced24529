import Mathlib.Data.List.Nodup
import SealedContent.Keys.Family
import SealedContent.Proofs.Text.Words

/-! # Names of slots

Some families have names that begin with the name of another one. Still a text names a slot of one family at
most (`Slot.ofNameIn?_unique`), because the slot number stands in the last two characters behind an underscore
and no name without a number ends like this. So the order of the families plays no part in a look-up
(`Slot.ofName?_eq_some_iff`), and every slot is found under its own name (`Slot.ofName?_name`).
-/

namespace SealedContent

open Text (isWord sameIgnoringCase trim)

/-! ## Families -/

namespace KeyFamily

/-- What a computation says about all names: no two are the same, they are words in lower case, and the name of a
    single family has no underscore at the third place from its end. -/
theorem names_checked : (all.map fun family => family.name.toList).Nodup ∧ ∀ family ∈ all,
    family.name.toList ≠ [] ∧ family.name.toList.all (fun c => isWord c && c.toLower == c) = true ∧
    (family.count? = none → family.name.toList.reverse[2]? ≠ some '_') ∧
    family.count?.getD 0 ≤ generationCount := by
  decide +kernel

theorem name_injective {family other : KeyFamily} (same : family.name.toList = other.name.toList) :
    family = other :=
  List.inj_on_of_nodup_map names_checked.1 (mem_all family) (mem_all other) same

/-- Names are words in lower case. -/
theorem name_characters : ∀ family ∈ all, family.name.toList ≠ [] ∧
    ∀ c ∈ family.name.toList, isWord c = true ∧ c.toLower = c := by
  intro family member
  obtain ⟨nonempty, characters, -⟩ := names_checked.2 family member
  exact ⟨nonempty, fun c there => by simpa using List.all_eq_true.mp characters c there⟩

theorem name_words (family : KeyFamily) : family.name.toList ≠ [] ∧ ∀ c ∈ family.name.toList, isWord c = true := by
  obtain ⟨nonempty, characters⟩ := name_characters family (mem_all family)
  exact ⟨nonempty, fun c member => (characters c member).1⟩

theorem name_lower (family : KeyFamily) : family.name.toList.map Char.toLower = family.name.toList :=
  (List.map_congr_left fun c member => ((name_characters family (mem_all family)).2 c member).2).trans
    (List.map_id _)

/-- The name of a single family does not end as if a number followed another name. -/
theorem name_unnumbered {family : KeyFamily} (single : family.count? = none) (front : List Char) (high low : Char) :
    family.name.toList ≠ front ++ ['_', high, low] := by
  obtain ⟨-, -, third, -⟩ := names_checked.2 family (mem_all family)
  intro same
  apply third single
  rw [same, List.reverse_append]
  rfl

theorem count_le {family : KeyFamily} {count : Nat} (counted : family.count? = some count) :
    count ≤ generationCount := by
  obtain ⟨-, -, -, bound⟩ := names_checked.2 family (mem_all family)
  rwa [counted] at bound

end KeyFamily

/-! ## Slots -/

namespace Slot

open KeyFamily

variable {family other : KeyFamily} {text : List Char} {slot : Slot}

theorem length_number? {digits : List Char} {index : Nat} (found : number? digits = some index) :
    ∃ high low, digits = [high, low] := by
  unfold number? at found
  split at found
  · exact ⟨_, _, rfl⟩
  · exact ⟨_, _, rfl⟩
  · cases found

theorem exists_single (single : slot.family.count? = none) : slot.Exists ↔ slot.index = 0 := by
  simp only [Exists, slotCount, single, Option.getD_none, Nat.lt_one_iff]

theorem exists_numbered {count : Nat} (counted : slot.family.count? = some count) :
    slot.Exists ↔ slot.index < count := by
  simp only [Exists, slotCount, counted, Option.getD_some]

/-! ### Look-ups in one family -/

theorem ofNameIn?_single (single : family.count? = none) : ofNameIn? family text = some slot ↔
    slot = ⟨family, 0⟩ ∧ sameIgnoringCase text family.name.toList = true := by
  simp only [ofNameIn?, single, Option.ite_none_right_eq_some, Option.some_inj]
  rw [and_comm, eq_comm]

/-- In a numbered family a slot is named by the name of the family, the mark and the number. -/
theorem ofNameIn?_numbered {count : Nat} (counted : family.count? = some count) :
    ofNameIn? family text = some slot ↔ slot.family = family ∧ slot.index < count ∧
      ∃ front digits, text = front ++ '_' :: digits ∧ sameIgnoringCase front family.name.toList = true ∧
        number? digits = some slot.index := by
  simp only [ofNameIn?, counted, Option.bind_eq_bind, Option.bind_eq_some_iff, Text.dropStart?_eq_some_iff]
  constructor
  · rintro ⟨rest, ⟨front, rfl, same⟩, found⟩
    split at found
    · next digits =>
      obtain ⟨index, numbered, found⟩ := Option.bind_eq_some_iff.mp found
      rw [Option.ite_none_right_eq_some, Option.some_inj] at found
      obtain ⟨inside, rfl⟩ := found
      exact ⟨rfl, inside, front, digits, rfl, same, numbered⟩
    · cases found
  · rintro ⟨rfl, inside, front, digits, rfl, same, numbered⟩
    refine ⟨'_' :: digits, ⟨front, rfl, same⟩, ?_⟩
    simp only [numbered, Option.bind_some, if_pos inside]

/-- A text that names a slot of a family is the family's name, with a number behind it if there is one. -/
theorem ofNameIn?_eq_some (found : ofNameIn? family text = some slot) : slot.family = family ∧
    ∃ ending, text.map Char.toLower = family.name.toList ++ ending ∧
      ((family.count? = none ∧ ending = []) ∨ ∃ high low, ending = ['_', high, low]) := by
  cases counted : family.count? with
  | none =>
    obtain ⟨rfl, same⟩ := (ofNameIn?_single counted).mp found
    simp only [sameIgnoringCase, beq_iff_eq] at same
    exact ⟨rfl, [], by rw [same, name_lower, List.append_nil], .inl ⟨rfl, rfl⟩⟩
  | some count =>
    obtain ⟨rfl, -, front, digits, rfl, same, numbered⟩ := (ofNameIn?_numbered counted).mp found
    obtain ⟨high, low, rfl⟩ := length_number? numbered
    simp only [sameIgnoringCase, beq_iff_eq] at same
    have spelled : (front ++ ['_', high, low]).map Char.toLower =
        slot.family.name.toList ++ ['_', high.toLower, low.toLower] := by
      rw [List.map_append, same, name_lower]
      rfl
    exact ⟨rfl, _, spelled, .inr ⟨_, _, rfl⟩⟩

/-- No text names slots of two families. -/
theorem ofNameIn?_unique {slot otherSlot : Slot} (found : ofNameIn? family text = some slot)
    (again : ofNameIn? other text = some otherSlot) : family = other := by
  obtain ⟨-, ending, spelled, kind⟩ := ofNameIn?_eq_some found
  obtain ⟨-, otherEnding, otherSpelled, otherKind⟩ := ofNameIn?_eq_some again
  have same := spelled.symm.trans otherSpelled
  obtain ⟨single, rfl⟩ | ⟨high, low, rfl⟩ := kind
  · obtain ⟨-, rfl⟩ | ⟨_, _, rfl⟩ := otherKind
    · exact name_injective (List.append_inj' same rfl).1
    · exact absurd ((List.append_nil _).symm.trans same) (name_unnumbered single _ _ _)
  · obtain ⟨otherSingle, rfl⟩ | ⟨_, _, rfl⟩ := otherKind
    · exact absurd ((List.append_nil _).symm.trans same.symm) (name_unnumbered otherSingle _ _ _)
    · exact name_injective (List.append_inj' same rfl).1

/-- A look-up that asks the families in some order. -/
def ofNameBy? (order : List KeyFamily) (text : List Char) : Option Slot :=
  order.findSome? fun family => ofNameIn? family (trim text)

/-- A look-up that asks every family may ask the family of the slot at once. -/
theorem ofNameBy?_eq_some_iff {order : List KeyFamily} (complete : ∀ family, family ∈ order) :
    ofNameBy? order text = some slot ↔ ofNameIn? slot.family (trim text) = some slot := by
  constructor
  · intro found
    obtain ⟨family, -, named⟩ := List.exists_of_findSome?_eq_some found
    rwa [← (ofNameIn?_eq_some named).1] at named
  · intro named
    have some : (ofNameBy? order text).isSome :=
      List.findSome?_isSome_iff.mpr ⟨slot.family, complete _, by rw [named]; rfl⟩
    obtain ⟨first, found⟩ := Option.isSome_iff_exists.mp some
    obtain ⟨family, -, earlier⟩ := List.exists_of_findSome?_eq_some found
    obtain rfl := ofNameIn?_unique earlier named
    exact found.trans (earlier.symm.trans named)

theorem ofName?_eq_some_iff : ofName? text = some slot ↔ ofNameIn? slot.family (trim text) = some slot :=
  ofNameBy?_eq_some_iff KeyFamily.mem_all

theorem exists_of_ofName? (named : ofName? text = some slot) : slot.Exists := by
  have found := ofName?_eq_some_iff.mp named
  cases counted : slot.family.count? with
  | none => exact (exists_single counted).mpr (congrArg Slot.index ((ofNameIn?_single counted).mp found).1)
  | some count => exact (exists_numbered counted).mpr ((ofNameIn?_numbered counted).mp found).2.1

theorem twoDigits_checked : ∀ index < generationCount,
    number? (Hex.twoDigits index).toList = some index ∧ (Hex.twoDigits index).toList.all isWord = true := by
  decide +kernel

theorem number?_twoDigits : ∀ index < generationCount, number? (Hex.twoDigits index).toList = some index :=
  fun index inside => (twoDigits_checked index inside).1

theorem twoDigits_words : ∀ index < generationCount, ∀ c ∈ (Hex.twoDigits index).toList, isWord c = true :=
  fun index inside => List.all_eq_true.mp (twoDigits_checked index inside).2

theorem lt_generationCount {count : Nat} (counted : slot.family.count? = some count) (there : slot.Exists) :
    slot.index < count ∧ slot.index < generationCount := by
  have inside := (exists_numbered counted).mp there
  exact ⟨inside, Nat.lt_of_lt_of_le inside (count_le counted)⟩

theorem name_single (single : slot.family.count? = none) : slot.name = slot.family.name := by
  rw [name, single]

theorem name_numbered {count : Nat} (counted : slot.family.count? = some count) :
    slot.name.toList = slot.family.name.toList ++ '_' :: (Hex.twoDigits slot.index).toList := by
  simp only [name, counted]
  rw [String.toList_append, String.toList_append, List.append_assoc]
  rfl

theorem name_words (there : slot.Exists) : slot.name.toList ≠ [] ∧ ∀ c ∈ slot.name.toList, isWord c = true := by
  obtain ⟨nonempty, words⟩ := KeyFamily.name_words slot.family
  cases counted : slot.family.count? with
  | none =>
    rw [name_single counted]
    exact ⟨nonempty, words⟩
  | some count =>
    have digits := twoDigits_words slot.index (lt_generationCount counted there).2
    rw [name_numbered counted]
    refine ⟨by simp, fun c member => ?_⟩
    obtain named | mark | digit := (List.mem_append.mp member).imp_right List.mem_cons.mp
    · exact words c named
    · rw [mark]; rfl
    · exact digits c digit

theorem ofNameIn?_name (there : slot.Exists) : ofNameIn? slot.family slot.name.toList = some slot := by
  cases counted : slot.family.count? with
  | none =>
    rw [name_single counted, ofNameIn?_single counted, ← (exists_single counted).mp there]
    exact ⟨rfl, beq_self_eq_true _⟩
  | some count =>
    obtain ⟨inside, short⟩ := lt_generationCount counted there
    rw [name_numbered counted, ofNameIn?_numbered counted]
    exact ⟨rfl, inside, _, _, rfl, beq_self_eq_true _, number?_twoDigits slot.index short⟩

/-- Every slot is found under its name. -/
theorem ofName?_name (there : slot.Exists) : ofName? slot.name.toList = some slot := by
  rw [ofName?_eq_some_iff, Text.trim_eq_self (Text.trimmed_of_words (name_words there).2)]
  exact ofNameIn?_name there

end Slot

end SealedContent
