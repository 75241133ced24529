import SealedContent.Proofs.Keys.Names

/-! # Spellings of slots

Which texts name a slot (`Slot.ofName?_spelled`): those that give its name in key files up to case, and one
spelling more. A number may carry a plus sign in the place of its first digit, so the slots below sixteen of a
numbered family are also found under a sign and a single digit (`Slot.Spelled.signed`). No text spells two
slots, so the families may be asked in any order.
-/

namespace SealedContent

/-! ## Case -/

namespace Text

/-- A property of all characters is checked on the rows of ASCII, and shown for the characters beyond, which
    have no case. -/
theorem forall_char {property : Char → Prop} (ascii : ∀ row < 8, ∀ n < 16, property (Char.ofNat (row * 16 + n)))
    (beyond : ∀ c : Char, 0x80 ≤ c.toNat → c.toLower = c → property c) (c : Char) : property c := by
  by_cases small : c.toNat < 0x80
  · have checked := ascii (c.toNat / 16) (by omega) (c.toNat % 16) (by omega)
    rwa [Nat.div_add_mod', Char.ofNat_toNat] at checked
  · apply beyond c (Nat.le_of_not_lt small)
    have noCapital : ¬(c.val ≥ 'A'.val ∧ c.val ≤ 'Z'.val) := by
      intro capital
      have bound : c.toNat ≤ 0x5A := UInt32.le_iff_toNat_le.mp capital.2
      omega
    exact dif_neg noCapital

/-- The marks in spellings of slots have no case. -/
theorem toLower_eq_mark : ∀ c : Char, (c.toLower = '_' ↔ c = '_') ∧ (c.toLower = '+' ↔ c = '+') := by
  apply forall_char
  · decide
  · intro c _ same
    rw [same]
    exact ⟨Iff.rfl, Iff.rfl⟩

theorem sameIgnoringCase_append {text first second : List Char} : sameIgnoringCase text (first ++ second) = true ↔
    ∃ front back, text = front ++ back ∧ sameIgnoringCase front first = true ∧
      sameIgnoringCase back second = true := by
  simp only [sameIgnoringCase, beq_iff_eq, List.map_append, List.map_eq_append_iff]

theorem sameIgnoringCase_underscore {text rest : List Char} : sameIgnoringCase text ('_' :: rest) = true ↔
    ∃ back, text = '_' :: back ∧ sameIgnoringCase back rest = true := by
  have lower : '_'.toLower = '_' := rfl
  simp only [sameIgnoringCase, beq_iff_eq, List.map_cons, List.map_eq_cons_iff, lower]
  constructor
  · rintro ⟨first, back, rfl, marked, same⟩
    rw [(toLower_eq_mark first).1.mp marked]
    exact ⟨back, rfl, same⟩
  · rintro ⟨back, rfl, same⟩
    exact ⟨'_', back, rfl, lower, same⟩

/-- Two texts with an underscore between them. -/
theorem sameIgnoringCase_joined {text first second : List Char} :
    sameIgnoringCase text (first ++ '_' :: second) = true ↔
      ∃ front back, text = front ++ '_' :: back ∧ sameIgnoringCase front first = true ∧
        sameIgnoringCase back second = true := by
  simp only [sameIgnoringCase_append, sameIgnoringCase_underscore]
  constructor
  · rintro ⟨front, _, rfl, same, back, rfl, sameBack⟩
    exact ⟨front, back, rfl, same, sameBack⟩
  · rintro ⟨front, back, rfl, same, sameBack⟩
    exact ⟨front, _, rfl, same, back, rfl, sameBack⟩

end Text

/-! ## Numbers in two characters -/

namespace Hex

theorem lowerDigit_ascii : ∀ n < 16, (lowerDigit n).toNat < 0x80 ∧ (lowerDigit n).toLower = lowerDigit n ∧
    lowerDigit n ≠ '+' := by
  decide

theorem digit?_lt {c : Char} {n : Nat} (found : digit? c = some n) : n < 16 := by
  simp only [digit?, Char.reduceToNat] at found
  grind

/-- A character is a digit if it is one in lower case. -/
theorem digit?_eq_some_iff : ∀ c : Char, ∀ n < 16, digit? c = some n ↔ c.toLower = lowerDigit n := by
  apply Text.forall_char
  · decide
  · intro c beyond same n short
    have none : digit? c = none := by
      simp only [digit?, Char.reduceToNat]
      grind
    have ascii := (lowerDigit_ascii n short).1
    rw [none, same]
    constructor
    · intro found
      cases found
    · rintro rfl
      omega

/-- Bytes are read off their digits, in either case. -/
theorem decode?_eq_some_iff {text : List Char} {bytes : Bytes} :
    decode? text = some bytes ↔ text.map Char.toLower = encode lowerDigit bytes := by
  fun_induction decode? text generalizing bytes with
  | case1 => cases bytes <;> simp [encode]
  | case2 c => cases bytes <;> simp [encode]
  | case3 high low rest inductionHypothesis =>
    simp only [Option.bind_eq_bind, Option.bind_eq_some_iff, Option.pure_def, Option.some_inj]
    constructor
    · rintro ⟨h, highFound, l, lowFound, others, later, rfl⟩
      have highShort := digit?_lt highFound
      have lowShort := digit?_lt lowFound
      have value : (UInt8.ofNat (h * 16 + l)).toNat = h * 16 + l := UInt8.toNat_ofNat_of_lt' (show _ < 256 by omega)
      rw [digit?_eq_some_iff high h highShort] at highFound
      rw [digit?_eq_some_iff low l lowShort] at lowFound
      simp only [encode, List.flatMap_cons, value]
      rw [show (h * 16 + l) / 16 = h by omega, show (h * 16 + l) % 16 = l by omega, List.map_cons, List.map_cons,
        highFound, lowFound, inductionHypothesis.mp later]
      rfl
    · intro same
      cases bytes with
      | nil => cases same
      | cons b others =>
        have short : b.toNat < 256 := b.toNat_lt
        obtain ⟨highSame, lowSame, later⟩ : high.toLower = lowerDigit (b.toNat / 16) ∧
            low.toLower = lowerDigit (b.toNat % 16) ∧ rest.map Char.toLower = encode lowerDigit others := by
          simpa [encode] using same
        refine ⟨_, (digit?_eq_some_iff high _ (by omega)).mpr highSame, _,
          (digit?_eq_some_iff low _ (by omega)).mpr lowSame, others, inductionHypothesis.mpr later, ?_⟩
        rw [show b.toNat / 16 * 16 + b.toNat % 16 = b.toNat by omega, UInt8.ofNat_toNat]

theorem decodeExact?_eq_some_iff {size : Nat} {text : List Char} {bytes : Bytes} :
    decodeExact? size text = some bytes ↔
      text.map Char.toLower = encode lowerDigit bytes ∧ bytes.length = size := by
  rw [decodeExact?, Option.filter_eq_some_iff, decode?_eq_some_iff, decide_eq_true_iff]

end Hex

namespace Slot

open Text (sameIgnoringCase)

theorem toList_twoDigits : ∀ index < generationCount,
    (Hex.twoDigits index).toList = [Hex.lowerDigit (index / 16), Hex.lowerDigit (index % 16)] := by
  decide

/-- The number of two digits, the first of them no sign. -/
theorem digits_eq_some_iff {high low : Char} {index : Nat} (short : index < 0x100) :
    (do let h ← Hex.digit? high; let l ← Hex.digit? low; pure (h * 16 + l)) = some index ↔
      high.toLower = Hex.lowerDigit (index / 16) ∧ low.toLower = Hex.lowerDigit (index % 16) := by
  rw [← Hex.digit?_eq_some_iff high _ (by omega), ← Hex.digit?_eq_some_iff low _ (by omega)]
  constructor
  · intro found
    simp only [Option.bind_eq_bind, Option.bind_eq_some_iff, Option.pure_def, Option.some_inj] at found
    obtain ⟨h, highFound, l, lowFound, rfl⟩ := found
    have lowShort := Hex.digit?_lt lowFound
    rw [highFound, lowFound]
    constructor <;> congr 1 <;> omega
  · intro ⟨highFound, lowFound⟩
    simp only [highFound, lowFound, Option.bind_eq_bind, Option.bind_some, Option.pure_def, Option.some_inj]
    omega

/-- A number below the count of generations is given by its two digits, or by a sign and its only digit. -/
theorem number?_eq_some_iff {digits : List Char} {index : Nat} (short : index < generationCount) :
    number? digits = some index ↔ sameIgnoringCase digits (Hex.twoDigits index).toList = true ∨
      index < 16 ∧ sameIgnoringCase digits ['+', Hex.lowerDigit index] = true := by
  have below : index < 32 := short
  have lower n (h : n < 16) := (Hex.lowerDigit_ascii n h).2
  rw [toList_twoDigits index short]
  simp only [sameIgnoringCase, beq_iff_eq, List.map_cons, List.map_nil, (lower (index / 16) (by omega)).1,
    (lower (index % 16) (by omega)).1]
  fun_cases number? digits with
  | case1 low =>
    simp only [List.map_cons, List.map_nil, List.cons.injEq, and_true]
    constructor
    · intro found
      have small := Hex.digit?_lt found
      exact .inr ⟨small, trivial, by rw [(lower index small).1, ← Hex.digit?_eq_some_iff low index small, found]⟩
    · rintro (⟨sign, -⟩ | ⟨small, -, same⟩)
      · exact absurd sign.symm (lower (index / 16) (by omega)).2
      · rwa [(lower index small).1, ← Hex.digit?_eq_some_iff low index small] at same
  | case2 high low noSign =>
    rw [digits_eq_some_iff (by omega)]
    simp only [List.map_cons, List.map_nil, List.cons.injEq, and_true]
    have unsigned : high.toLower ≠ '+' := fun sign => noSign ((Text.toLower_eq_mark high).2.mp sign)
    simp [unsigned]
  | case3 _ _ noPair =>
    have unpaired a b : digits.map Char.toLower ≠ [a, b] := by
      intro same
      have two : digits.length = 2 := by simpa using congrArg List.length same
      obtain ⟨high, low, rfl⟩ := List.length_eq_two.mp two
      exact noPair high low rfl
    simp [unpaired]

/-! ## Texts that name a slot -/

/-- The texts that name a slot, without blanks around them. -/
inductive Spelled (text : List Char) (slot : Slot) : Prop where
  | printed (there : slot.Exists) (same : sameIgnoringCase text slot.name.toList = true)
  | signed (there : slot.Exists) (numbered : slot.family.count? ≠ none) (short : slot.index < 16)
      (same : sameIgnoringCase text (slot.family.name.toList ++ ['_', '+', Hex.lowerDigit slot.index]) = true)

variable {family : KeyFamily} {text : List Char} {slot : Slot}

/-- The two spellings of a slot of a numbered family differ in the number only. -/
theorem spelled_numbered {count : Nat} (counted : slot.family.count? = some count) :
    Spelled text slot ↔ slot.index < count ∧
      ∃ front digits, text = front ++ '_' :: digits ∧ sameIgnoringCase front slot.family.name.toList = true ∧
        number? digits = some slot.index := by
  constructor
  · intro spelled
    cases spelled with
    | printed there same =>
      obtain ⟨inside, short⟩ := lt_generationCount counted there
      rw [name_numbered counted] at same
      obtain ⟨front, digits, rfl, same, sameDigits⟩ := Text.sameIgnoringCase_joined.mp same
      exact ⟨inside, front, digits, rfl, same, (number?_eq_some_iff short).mpr (.inl sameDigits)⟩
    | signed there numbered small same =>
      obtain ⟨inside, short⟩ := lt_generationCount counted there
      obtain ⟨front, digits, rfl, same, sameDigits⟩ := Text.sameIgnoringCase_joined.mp same
      exact ⟨inside, front, digits, rfl, same, (number?_eq_some_iff short).mpr (.inr ⟨small, sameDigits⟩)⟩
  · rintro ⟨inside, front, digits, rfl, same, numbered⟩
    have there := (exists_numbered counted).mpr inside
    obtain printed | ⟨small, signed⟩ := (number?_eq_some_iff (lt_generationCount counted there).2).mp numbered
    · apply Spelled.printed there
      rw [name_numbered counted]
      exact Text.sameIgnoringCase_joined.mpr ⟨front, digits, rfl, same, printed⟩
    · exact .signed there (by simp [counted]) small (Text.sameIgnoringCase_joined.mpr ⟨front, digits, rfl, same, signed⟩)

/-- A look-up in one family finds the slots of it that the text spells. -/
theorem ofNameIn?_spelled : ofNameIn? family text = some slot ↔ slot.family = family ∧ Spelled text slot := by
  cases counted : family.count? with
  | none =>
    rw [ofNameIn?_single counted]
    constructor
    · rintro ⟨rfl, same⟩
      exact ⟨rfl, .printed ((exists_single counted).mpr rfl) (by rwa [name_single counted])⟩
    · rintro ⟨rfl, spelled⟩
      cases spelled with
      | printed there same =>
        rw [name_single counted] at same
        exact ⟨by rw [← (exists_single counted).mp there], same⟩
      | signed _ numbered => exact absurd counted numbered
  | some count =>
    rw [ofNameIn?_numbered counted]
    constructor
    · rintro ⟨rfl, named⟩
      exact ⟨rfl, (spelled_numbered counted).mpr named⟩
    · rintro ⟨rfl, spelled⟩
      exact ⟨rfl, (spelled_numbered counted).mp spelled⟩

/-- No text spells two slots. -/
theorem Spelled.unique {other : Slot} (spelled : Spelled text slot) (again : Spelled text other) : slot = other := by
  have found : ofNameIn? slot.family text = some slot := ofNameIn?_spelled.mpr ⟨rfl, spelled⟩
  have foundAgain : ofNameIn? other.family text = some other := ofNameIn?_spelled.mpr ⟨rfl, again⟩
  rw [ofNameIn?_unique foundAgain found, found] at foundAgain
  exact Option.some_inj.mp foundAgain

/-- A look-up finds exactly the slot that the text spells between its blanks, in whatever order it asks the
    families. -/
theorem ofName?_spelled {order : List KeyFamily} (reordered : order.Perm KeyFamily.all) (text : List Char)
    (slot : Slot) :
    (ofName? text = some slot ↔ Spelled (Text.trim text) slot) ∧
      (∀ other, Spelled (Text.trim text) slot → Spelled (Text.trim text) other → slot = other) ∧
      ofNameBy? order text = ofName? text := by
  have complete family : family ∈ order := reordered.mem_iff.mpr (KeyFamily.mem_all family)
  refine ⟨?_, fun other => Spelled.unique, ?_⟩
  · rw [ofName?_eq_some_iff, ofNameIn?_spelled]
    exact and_iff_right rfl
  · ext slot
    rw [ofNameBy?_eq_some_iff complete, ofName?_eq_some_iff]

/-- A sign may stand for the first digit, which no name in key files has. -/
theorem ofName?_signed : KeyFamily.all.reverse.Perm KeyFamily.all ∧
    ofName? " Master_Key_+5\n".toList = some ⟨.masterKey, 5⟩ ∧
    ofNameBy? KeyFamily.all.reverse " Master_Key_+5\n".toList = some ⟨.masterKey, 5⟩ ∧
    sameIgnoringCase (Text.trim " Master_Key_+5\n".toList) (name ⟨.masterKey, 5⟩).toList = false := by
  have reordered := List.reverse_perm KeyFamily.all
  have spelled : Spelled (Text.trim " Master_Key_+5\n".toList) ⟨.masterKey, 5⟩ :=
    .signed (by decide) (by decide) (by decide) (by decide)
  obtain ⟨found, -, same⟩ := ofName?_spelled reordered " Master_Key_+5\n".toList ⟨.masterKey, 5⟩
  exact ⟨reordered, found.mpr spelled, same.trans (found.mpr spelled), by decide⟩

end Slot

end SealedContent
