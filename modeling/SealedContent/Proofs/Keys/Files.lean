import Mathlib.Data.Set.Card
import SealedContent.Keys.File
import SealedContent.Proofs.Keys.Imports
import SealedContent.Proofs.Keys.Names
import SealedContent.Proofs.Text.Utf8

/-! # Key files read back

An export writes one line for every key (`keyLine`), and every such line is read as its key again
(`KeyLine.read_keyLine`). So an import of an export stores all keys that were written, and reports nothing but
their number: `KeyRing.importKeys_exportKeys`.
-/

namespace SealedContent

open Text (isWord isBlank trim)

/-! ## Files of lines -/

/-- What stands before the first line feed is a line. -/
theorem rawLines_append {line : Bytes} (unbroken : 0x0A ∉ line) (rest : Bytes) :
    rawLines (line ++ 0x0A :: rest) = line :: rawLines rest := by
  induction line with
  | nil => rw [List.nil_append, rawLines, if_pos rfl]
  | cons b line inductionHypothesis =>
    have other : b ≠ 0x0A := fun same => unbroken (same ▸ .head _)
    rw [List.cons_append, rawLines, if_neg other, inductionHypothesis fun member => unbroken (.tail _ member)]

theorem rawLines_flatMap_append {lines : List Bytes} (unbroken : ∀ line ∈ lines, 0x0A ∉ line) (back : Bytes) :
    rawLines (lines.flatMap (· ++ [0x0A]) ++ back) = lines ++ rawLines back := by
  induction lines with
  | nil => rfl
  | cons line others inductionHypothesis =>
    obtain ⟨first, rest⟩ := List.forall_mem_cons.mp unbroken
    rw [List.flatMap_cons, List.append_assoc, List.append_assoc, List.singleton_append, rawLines_append first,
      inductionHypothesis rest, List.cons_append]

theorem rawLines_flatMap {lines : List Bytes} (unbroken : ∀ line ∈ lines, 0x0A ∉ line) :
    rawLines (lines.flatMap (· ++ [0x0A])) = lines := by
  have whole := rawLines_flatMap_append unbroken []
  rwa [List.append_nil, rawLines, List.append_nil] at whole

theorem textLines_encode (lines : List String) :
    textLines (lines.map Utf8.encode) = (lines.map String.toList, true) := by
  induction lines with
  | nil => rfl
  | cons line rest inductionHypothesis =>
    simp only [List.map_cons, textLines, Utf8.decode?_encode, inductionHypothesis]

/-- A text is broken only where it has a line feed. -/
theorem unbroken_encode {text : String} (unbroken : '\n' ∉ text.toList) : 0x0A ∉ Utf8.encode text :=
  Utf8.not_mem_encode (by decide) unbroken

theorem encode_join (lines : List String) :
    Utf8.encode (String.join (lines.map (· ++ "\n"))) = (lines.map Utf8.encode).flatMap (· ++ [0x0A]) := by
  rw [Utf8.encode, String.toList_join, List.flatMap_map, List.flatMap_map, List.flatMap_assoc]
  congr 1
  funext line
  rw [String.toList_append, List.flatMap_append]
  rfl

/-- Texts without line feeds are read as they were written. -/
theorem textLines_join {lines : List String} (unbroken : ∀ line ∈ lines, '\n' ∉ line.toList) :
    textLines (rawLines (Utf8.encode (String.join (lines.map (· ++ "\n"))))) =
      (lines.map String.toList, true) := by
  rw [encode_join, rawLines_flatMap, textLines_encode]
  intro line member
  obtain ⟨text, among, rfl⟩ := List.mem_map.mp member
  exact unbroken_encode (unbroken text among)

/-! ## Assignments -/

/-- A line that gives a name its value. -/
def assignment (name : String) (value : Bytes) : String := name ++ " = " ++ Hex.upper value

section
variable {name : String} {value : Bytes}

theorem toList_assignment : (assignment name value).toList =
    name.toList ++ " ".toList ++ '=' :: (" ".toList ++ (Hex.upper value).toList) := by
  rw [assignment, String.toList_append, String.toList_append, List.append_assoc, List.append_assoc]
  rfl

theorem upper_ne_nil (valued : value ≠ []) : (Hex.upper value).toList ≠ [] := by
  cases value with
  | nil => exact absurd rfl valued
  | cons b rest => simp [Hex.upper, Hex.encode]

theorem decodeExact?_upper (value : Bytes) : Hex.decodeExact? value.length (Hex.upper value).toList = some value := by
  rw [Hex.decodeExact?, Hex.upper, String.toList_ofList, Hex.decode?_encode Hex.digit?_upperDigit]
  simp [Option.filter]

theorem trim_digits (value : Bytes) : trim (" ".toList ++ (Hex.upper value).toList) = (Hex.upper value).toList := by
  have blank : ∀ c ∈ " ".toList, isBlank c = true := List.all_eq_true.mp (by decide)
  have padded := Text.trim_padded (Text.trimmed_of_words fun c (digit : c ∈ (Hex.upper value).toList) =>
    Text.isWord_upper digit) blank (List.forall_mem_nil _)
  rwa [List.append_nil] at padded

variable (words : ∀ c ∈ name.toList, isWord c = true)
include words

theorem trim_name : trim (name.toList ++ " ".toList) = name.toList :=
  Text.trim_padded (Text.trimmed_of_words words) (List.forall_mem_nil _) (List.all_eq_true.mp (by decide))

theorem unbroken_assignment : '\n' ∉ (assignment name value).toList := by
  intro member
  rw [toList_assignment] at member
  simp only [List.mem_append, List.mem_cons] at member
  obtain (named | blank) | mark | blank | digit := member
  · exact (Text.plain_of_isWord (words _ named)).2.2.1 rfl
  · exact absurd blank (by decide)
  · exact absurd mark (by decide)
  · exact absurd blank (by decide)
  · exact (Text.plain_of_isWord (Text.isWord_upper digit)).2.2.1 rfl

theorem lineContent?_assignment (nonempty : name.toList ≠ []) (valued : value ≠ []) :
    lineContent? (assignment name value).toList = some (assignment name value).toList := by
  have trimmed : Text.Trimmed (assignment name value).toList := by
    rw [assignment, String.toList_append, String.toList_append]
    exact Text.trimmed_append words (fun c => Text.isWord_upper) nonempty (upper_ne_nil valued)
  obtain ⟨c, rest, named⟩ := List.exists_cons_of_ne_nil nonempty
  have plain := Text.plain_of_isWord (words c (named ▸ .head _))
  rw [lineContent?, Text.trim_eq_self trimmed, toList_assignment, named]
  -- a name does not open a comment
  simp [plain.2.2.2.2.2]

/-- A line is split at its equals sign, whatever other marks would split it. -/
theorem splitFirst?_assignment {separates : Char → Bool} (outside : ∀ c, isWord c = true → separates c = false)
    (blank : separates ' ' = false) (equals : separates '=' = true) :
    Text.splitFirst? separates (assignment name value).toList =
      some (name.toList ++ " ".toList, " ".toList ++ (Hex.upper value).toList) := by
  have unmarked : ∀ c ∈ name.toList ++ " ".toList, separates c = false := by
    intro c member
    obtain named | mark := List.mem_append.mp member
    · exact outside c (words c named)
    · obtain rfl : c = ' ' := by simpa using mark
      exact blank
  rw [toList_assignment, Text.splitFirst?_append unmarked equals]

end

/-! ## The line of a key -/

/-- The line that stores a value. -/
def keyLine (slot : Slot) (value : Bytes) : String := slot.name ++ " = " ++ Hex.upper value

variable {slot : Slot} {value : Bytes}

theorem keyLine_eq (slot : Slot) (value : Bytes) : keyLine slot value = assignment slot.name value := rfl

theorem KeyLine.read_keyLine (holds : slot.Holds value) :
    KeyLine.read (keyLine slot value).toList = .key slot value := by
  obtain ⟨nonempty, words⟩ := Slot.name_words holds.1
  have valued : value ≠ [] := by
    rintro rfl
    exact absurd holds.2.2 (by decide)
  have outside : ∀ c, isWord c = true → (decide (c = '=') || decide (c = ',')) = false := by
    intro c word
    obtain ⟨-, -, -, notEquals, notComma, -⟩ := Text.plain_of_isWord word
    simp [notEquals, notComma]
  rw [read, keyLine_eq, lineContent?_assignment words nonempty valued]
  simp only [splitFirst?_assignment words outside (by decide) (by decide), trim_name words, trim_digits,
    Slot.ofName?_name holds.1, ← holds.2.1, decodeExact?_upper]

/-! ## All keys -/

namespace KeyRing

/-- The slots of a file, in its order. -/
def fileSlots (includeUnique : Bool) : List Slot :=
  (KeyFamily.all.filter fun family => includeUnique || family.purpose ≠ .deviceUnique).flatMap fun family =>
    (List.range family.slotCount).map (Slot.mk family)

/-- The keys of a file, in its order. -/
def fileKeys (ring : KeyRing) (includeUnique : Bool) : List (Slot × Bytes) :=
  (fileSlots includeUnique).filterMap fun slot => (ring.known? slot).map (slot, ·)

/-- The slots that an export writes. -/
def exported (ring : KeyRing) (includeUnique : Bool) : Set Slot :=
  {slot | (ring.known? slot).isSome ∧ (includeUnique = true ∨ slot.family.purpose ≠ .deviceUnique)}

variable {ring : KeyRing} {includeUnique : Bool}

theorem mem_fileSlots : slot ∈ fileSlots includeUnique ↔
    slot.Exists ∧ (includeUnique = true ∨ slot.family.purpose ≠ .deviceUnique) := by
  simp only [fileSlots, List.mem_flatMap, List.mem_filter, List.mem_map, List.mem_range, Bool.or_eq_true,
    decide_eq_true_eq]
  constructor
  · rintro ⟨family, ⟨-, kept⟩, index, inside, rfl⟩
    exact ⟨inside, kept⟩
  · rintro ⟨inside, kept⟩
    exact ⟨slot.family, ⟨KeyFamily.mem_all _, kept⟩, slot.index, inside, rfl⟩

theorem nodup_fileSlots (includeUnique : Bool) : (fileSlots includeUnique).Nodup := by
  have families : KeyFamily.all.Nodup := by decide
  refine List.nodup_flatMap.mpr ⟨fun family _ => ?_, (families.filter _).imp fun differ => ?_⟩
  · exact List.nodup_range.map fun _ _ same => (Slot.mk.inj same).2
  · intro slot first second
    obtain ⟨_, -, rfl⟩ := List.mem_map.mp first
    obtain ⟨_, -, same⟩ := List.mem_map.mp second
    exact differ (Slot.mk.inj same).1.symm

theorem mem_fileKeys {entry : Slot × Bytes} (member : entry ∈ ring.fileKeys includeUnique) :
    ring.known? entry.1 = some entry.2 := by
  obtain ⟨slot, -, found⟩ := List.mem_filterMap.mp member
  obtain ⟨value, known, rfl⟩ := Option.map_eq_some_iff.mp found
  exact known

theorem map_fileKeys (ring : KeyRing) (includeUnique : Bool) : (ring.fileKeys includeUnique).map (·.1) =
    (fileSlots includeUnique).filter fun slot => (ring.known? slot).isSome := by
  rw [fileKeys, List.map_filterMap, ← List.filterMap_eq_filter]
  congr 1
  funext slot
  cases known : ring.known? slot <;> simp [Option.guard, known]

theorem exportKeys_eq (ring : KeyRing) (includeUnique : Bool) : ring.exportKeys includeUnique =
    String.join (((ring.fileKeys includeUnique).map fun entry => keyLine entry.1 entry.2).map (· ++ "\n")) := by
  rw [exportKeys, fileKeys, fileSlots, List.filterMap_flatMap, List.map_flatMap, List.map_flatMap]
  congr 2
  funext family
  rw [exportFamily, List.filterMap_map, List.map_filterMap, List.map_filterMap]
  congr 1
  funext index
  rw [Function.comp_apply, Option.map_map, Option.map_map]
  rfl

/-- Lines that store what a ring knows make another ring agree with it on their slots. -/
theorem applyKeys_known {entries : List (Slot × Bytes)} (known : ∀ entry ∈ entries, ring.known? entry.1 = some entry.2)
    (start : KeyRing) (slot : Slot) :
    ((entries.map fun entry => KeyLine.key entry.1 entry.2).foldl applyLine start).known? slot =
      if slot ∈ entries.map (·.1) then ring.known? slot else start.known? slot := by
  induction entries generalizing start with
  | nil => rfl
  | cons entry rest inductionHypothesis =>
    have stored := known entry (.head _)
    obtain ⟨there, long, nonzero⟩ := ring.holds _ _ stored
    rw [List.map_cons, List.foldl_cons, inductionHypothesis fun other member => known other (.tail _ member),
      applyLine, known?_set ⟨there, long⟩, List.map_cons]
    by_cases later : slot ∈ rest.map (·.1)
    · rw [if_pos later, if_pos (.tail _ later)]
    · rw [if_neg later]
      by_cases here : slot = entry.1
      · rw [if_pos here, if_pos (here ▸ .head _), here, stored, nonzero?, nonzero]
        rfl
      · rw [if_neg here, if_neg (by simp only [List.mem_cons, not_or]; exact ⟨here, later⟩)]

theorem addKeys_loaded (entries : List (Slot × Bytes)) (report : KeyReport) :
    (entries.map fun entry => KeyLine.key entry.1 entry.2).foldl KeyReport.add report =
      { report with loaded := report.loaded + entries.length } := by
  induction entries generalizing report with
  | nil => rfl
  | cons entry rest inductionHypothesis =>
    rw [List.map_cons, List.foldl_cons, inductionHypothesis, KeyReport.add, List.length_cons]
    simp only [Nat.add_assoc, Nat.add_comm 1]

theorem ncard_exported (ring : KeyRing) (includeUnique : Bool) :
    (ring.exported includeUnique).ncard = (ring.fileKeys includeUnique).length := by
  have slots : ring.exported includeUnique =
      (((fileSlots includeUnique).filter fun slot => (ring.known? slot).isSome).toFinset : Set Slot) := by
    ext slot
    simp only [exported, Set.mem_ofPred_eq, List.coe_toFinset, List.mem_filter, mem_fileSlots]
    constructor
    · rintro ⟨known, kept⟩
      obtain ⟨value, found⟩ := Option.isSome_iff_exists.mp known
      exact ⟨⟨(ring.holds _ _ found).1, kept⟩, known⟩
    · rintro ⟨⟨-, kept⟩, known⟩
      exact ⟨known, kept⟩
  rw [slots, Set.ncard_coe_finset, List.toFinset_card_of_nodup ((nodup_fileSlots _).filter _), ← map_fileKeys,
    List.length_map]

/-- An export read into an empty ring stores every key that was written, and nothing in the other slots. The
    report counts the keys and rejects nothing. -/
theorem importKeys_exportKeys (ring : KeyRing) (includeUnique : Bool) :
    (empty.importKeys (Utf8.encode (ring.exportKeys includeUnique))).report =
      .ok ⟨(ring.exported includeUnique).ncard, [], []⟩ ∧
    (empty.importKeys (Utf8.encode (ring.exportKeys includeUnique))).warnings = [] ∧
    ∀ slot, (empty.importKeys (Utf8.encode (ring.exportKeys includeUnique))).ring.known? slot =
      if includeUnique = true ∨ slot.family.purpose ≠ .deviceUnique then ring.known? slot else none := by
  have holds : ∀ entry ∈ ring.fileKeys includeUnique, entry.1.Holds entry.2 :=
    fun entry member => ring.holds _ _ (mem_fileKeys member)
  have unbroken : ∀ line ∈ (ring.fileKeys includeUnique).map fun entry => keyLine entry.1 entry.2,
      '\n' ∉ line.toList := by
    intro line member
    obtain ⟨entry, among, rfl⟩ := List.mem_map.mp member
    exact unbroken_assignment (Slot.name_words (holds entry among).1).2
  have lines : (((ring.fileKeys includeUnique).map fun entry => keyLine entry.1 entry.2).map String.toList).map
      KeyLine.read = (ring.fileKeys includeUnique).map fun entry => KeyLine.key entry.1 entry.2 := by
    rw [List.map_map, List.map_map]
    exact List.map_congr_left fun entry member => KeyLine.read_keyLine (holds entry member)
  simp only [importKeys, exportKeys_eq, textLines_join unbroken, lines, if_true]
  refine ⟨?_, ?_, fun slot => ?_⟩
  · rw [addKeys_loaded, ncard_exported, Nat.zero_add]
  · rw [List.filterMap_map]
    exact List.filterMap_eq_nil_iff.mpr fun entry _ => rfl
  · rw [applyKeys_known (fun entry => mem_fileKeys), map_fileKeys]
    simp only [List.mem_filter, mem_fileSlots]
    cases known : ring.known? slot with
    | none => simp [empty]
    | some value =>
      have there := (ring.holds _ _ known).1
      simp [there, empty]

end KeyRing

end SealedContent
