import SealedContent.Text.Blank
import SealedContent.Text.Hex

/-! # Words in a line

A line of a key file is made of words: letters, digits and underscores, which no reader takes for a blank or a
mark (`plain_of_isWord`). Blanks around a text are trimmed (`trim_padded`), and a text is cut at the first of
the marks in it (`splitFirst?_append`).
-/

namespace SealedContent.Text

/-! ## Words -/

/-- A letter, a digit or an underscore. -/
def isWord (c : Char) : Bool := c.isAlphanum || c == '_'

/-- The characters of words are ASCII, and neither blanks nor marks. -/
theorem plain_of_isWord {c : Char} (word : isWord c = true) :
    c.toNat < 0x80 ∧ isBlank c = false ∧ c ≠ '\n' ∧ c ≠ '=' ∧ c ≠ ',' ∧ c ≠ ';' ∧ c ≠ '#' := by
  have ascii : c.toNat < 0x80 := by
    delta isWord Char.isAlphanum Char.isAlpha Char.isUpper Char.isLower Char.isDigit at word
    simp only [Bool.or_eq_true, Bool.and_eq_true, decide_eq_true_eq, beq_iff_eq, ge_iff_le,
      UInt32.le_iff_toNat_le] at word
    obtain ((upper | lower) | digit) | rfl := word
    · exact Nat.lt_of_le_of_lt upper.2 (by decide)
    · exact Nat.lt_of_le_of_lt lower.2 (by decide)
    · exact Nat.lt_of_le_of_lt digit.2 (by decide)
    · decide
  have plain : ∀ n < 0x80, isWord (Char.ofNat n) = true → isBlank (Char.ofNat n) = false ∧
      Char.ofNat n ≠ '\n' ∧ Char.ofNat n ≠ '=' ∧ Char.ofNat n ≠ ',' ∧ Char.ofNat n ≠ ';' ∧
      Char.ofNat n ≠ '#' := by decide
  have same := plain c.toNat ascii
  rw [Char.ofNat_toNat] at same
  exact ⟨ascii, same word⟩

theorem isWord_upperDigit : ∀ n < 16, isWord (Hex.upperDigit n) = true := by decide

theorem isWord_upper {bytes : Bytes} {c : Char} (member : c ∈ (Hex.upper bytes).toList) : isWord c = true := by
  rw [Hex.upper, String.toList_ofList, Hex.encode, List.mem_flatMap] at member
  obtain ⟨b, -, digit⟩ := member
  have short : b.toNat < 256 := b.toNat_lt
  simp only [List.mem_cons, List.not_mem_nil, or_false] at digit
  obtain rfl | rfl := digit
  all_goals exact isWord_upperDigit _ (by omega)

/-! ## Blanks -/

/-- No blank stands at the ends of the text. -/
def Trimmed (text : List Char) : Prop :=
  (∀ c, text.head? = some c → isBlank c = false) ∧ ∀ c, text.getLast? = some c → isBlank c = false

theorem trimmed_of_words {text : List Char} (words : ∀ c ∈ text, isWord c = true) : Trimmed text :=
  ⟨fun c first => (plain_of_isWord (words c (List.mem_of_mem_head? first))).2.1,
    fun c last => (plain_of_isWord (words c (List.mem_of_getLast? last))).2.1⟩

/-- Words with anything between them. -/
theorem trimmed_append {first between last : List Char} (firstWords : ∀ c ∈ first, isWord c = true)
    (lastWords : ∀ c ∈ last, isWord c = true) (firstSome : first ≠ []) (lastSome : last ≠ []) :
    Trimmed (first ++ between ++ last) := by
  constructor
  · intro c head
    obtain ⟨a, rest, rfl⟩ := List.exists_cons_of_ne_nil firstSome
    exact (trimmed_of_words firstWords).1 c head
  · intro c tail
    rw [List.getLast?_append, List.getLast?_eq_some_getLast lastSome, Option.some_or] at tail
    exact (trimmed_of_words lastWords).2 c ((List.getLast?_eq_some_getLast lastSome).trans tail)

/-- Blanks are dropped up to the first character that is none. -/
theorem dropWhile_isBlank {before text : List Char} (blank : ∀ c ∈ before, isBlank c = true)
    (start : ∀ c, text.head? = some c → isBlank c = false) : (before ++ text).dropWhile isBlank = text := by
  rw [List.dropWhile_append_of_pos blank]
  cases text with
  | nil => rfl
  | cons c rest => exact List.dropWhile_cons_of_neg (by simp [start c rfl])

theorem trim_padded {before text after : List Char} (trimmed : Trimmed text)
    (blankBefore : ∀ c ∈ before, isBlank c = true) (blankAfter : ∀ c ∈ after, isBlank c = true) :
    trim (before ++ text ++ after) = text := by
  have reversed : ∀ c ∈ after.reverse, isBlank c = true := fun c member => blankAfter c (List.mem_reverse.mp member)
  have last : ∀ c, text.reverse.head? = some c → isBlank c = false := by
    rw [List.head?_reverse]
    exact trimmed.2
  rw [trim]
  cases text with
  | nil =>
    have blank : ∀ c ∈ before ++ [] ++ after, isBlank c = true := by
      intro c member
      rw [List.append_nil] at member
      exact (List.mem_append.mp member).elim (blankBefore c) (blankAfter c)
    have gone := @dropWhile_isBlank _ [] blank (fun _ none => nomatch none)
    rw [List.append_nil] at gone
    rw [gone]
    rfl
  | cons c rest =>
    have first : ∀ d, (c :: rest ++ after).head? = some d → isBlank d = false := trimmed.1
    rw [List.append_assoc, dropWhile_isBlank blankBefore first, List.reverse_append,
      dropWhile_isBlank reversed last, List.reverse_reverse]

theorem trim_eq_self {text : List Char} (trimmed : Trimmed text) : trim text = text := by
  have padded := trim_padded trimmed (List.forall_mem_nil _) (List.forall_mem_nil _)
  rwa [List.nil_append, List.append_nil] at padded

/-- Blanks behind a text are dropped last. -/
theorem trim_append_takeWhile (text : List Char) :
    trim text ++ ((text.dropWhile isBlank).reverse.takeWhile isBlank).reverse = text.dropWhile isBlank := by
  rw [trim, ← List.reverse_append, List.takeWhile_append_dropWhile, List.reverse_reverse]

theorem head?_dropWhile_isBlank {text : List Char} {c : Char} (first : (text.dropWhile isBlank).head? = some c) :
    isBlank c = false := by
  have stopped := List.head?_dropWhile_not isBlank text
  rwa [first] at stopped

theorem trimmed_trim (text : List Char) : Trimmed (trim text) := by
  constructor
  · intro c first
    apply @head?_dropWhile_isBlank text
    rw [← trim_append_takeWhile, List.head?_append, first, Option.some_or]
  · intro c last
    rw [trim, List.getLast?_reverse] at last
    exact head?_dropWhile_isBlank last

/-- The trimmed text is what is left between blanks. -/
theorem trim_eq_iff {text inner : List Char} : trim text = inner ↔ Trimmed inner ∧ ∃ before after,
    text = before ++ inner ++ after ∧ (∀ c ∈ before, isBlank c = true) ∧ ∀ c ∈ after, isBlank c = true := by
  constructor
  · rintro rfl
    have blank (part : List Char) : ∀ c ∈ part.takeWhile isBlank, isBlank c = true :=
      List.all_eq_true.mp List.all_takeWhile
    refine ⟨trimmed_trim text, text.takeWhile isBlank, ((text.dropWhile isBlank).reverse.takeWhile isBlank).reverse, ?_,
      blank text, fun c member => blank _ c (List.mem_reverse.mp member)⟩
    rw [List.append_assoc, trim_append_takeWhile, List.takeWhile_append_dropWhile]
  · rintro ⟨trimmed, before, after, rfl, blankBefore, blankAfter⟩
    exact trim_padded trimmed blankBefore blankAfter

theorem trim_append_left {before : List Char} (blank : ∀ c ∈ before, isBlank c = true) (text : List Char) :
    trim (before ++ text) = trim text := by
  rw [trim, List.dropWhile_append_of_pos blank, trim]

theorem trim_append_right {after : List Char} (blank : ∀ c ∈ after, isBlank c = true) (text : List Char) :
    trim (text ++ after) = trim text := by
  obtain ⟨trimmed, first, last, padded, blankFirst, blankLast⟩ := trim_eq_iff.mp (rfl : trim text = trim text)
  refine trim_eq_iff.mpr ⟨trimmed, first, last ++ after, ?_, blankFirst, fun c member => ?_⟩
  · rw [← List.append_assoc, ← padded]
  · exact (List.mem_append.mp member).elim (blankLast c) (blank c)

/-! ## Marks -/

theorem splitFirst?_append {isSeparator : Char → Bool} {before : List Char} {mark : Char}
    (unmarked : ∀ c ∈ before, isSeparator c = false) (marks : isSeparator mark = true) (after : List Char) :
    splitFirst? isSeparator (before ++ mark :: after) = some (before, after) := by
  induction before with
  | nil => rw [List.nil_append, splitFirst?, if_pos marks]
  | cons c rest inductionHypothesis =>
    have found := inductionHypothesis fun other member => unmarked other (.tail _ member)
    rw [List.cons_append, splitFirst?, unmarked c (.head _), found]
    rfl

theorem splitFirst?_eq_some_iff {isSeparator : Char → Bool} {text before after : List Char} :
    splitFirst? isSeparator text = some (before, after) ↔ ∃ mark, text = before ++ mark :: after ∧
      isSeparator mark = true ∧ ∀ c ∈ before, isSeparator c = false := by
  constructor
  · intro found
    induction text generalizing before with
    | nil => cases found
    | cons c rest inductionHypothesis =>
      rw [splitFirst?] at found
      split at found
      · next marks =>
        cases found
        exact ⟨c, rfl, marks, List.forall_mem_nil _⟩
      · next unmarked =>
        obtain ⟨⟨early, late⟩, later, same⟩ := Option.map_eq_some_iff.mp found
        cases same
        obtain ⟨mark, rfl, marks, before⟩ := inductionHypothesis later
        exact ⟨mark, rfl, marks, List.forall_mem_cons.mpr ⟨by simpa using unmarked, before⟩⟩
  · rintro ⟨mark, rfl, marks, unmarked⟩
    exact splitFirst?_append unmarked marks after

theorem splitFirst?_eq_none_iff {isSeparator : Char → Bool} {text : List Char} :
    splitFirst? isSeparator text = none ↔ ∀ c ∈ text, isSeparator c = false := by
  induction text with
  | nil => exact ⟨fun _ => List.forall_mem_nil _, fun _ => rfl⟩
  | cons c rest inductionHypothesis =>
    rw [splitFirst?, List.forall_mem_cons, ← inductionHypothesis]
    cases marks : isSeparator c <;> simp

/-! ## Texts at the head of others -/

theorem dropStart?_eq_some_iff {start text rest : List Char} : dropStart? start text = some rest ↔
    ∃ front, text = front ++ rest ∧ sameIgnoringCase front start = true := by
  constructor
  · intro dropped
    rw [dropStart?, Option.ite_none_right_eq_some, Option.some_inj] at dropped
    obtain ⟨same, rfl⟩ := dropped
    exact ⟨_, (List.take_append_drop _ _).symm, same⟩
  · intro ⟨front, spelled, same⟩
    have length : front.length = start.length := by
      simpa [sameIgnoringCase] using congrArg List.length (beq_iff_eq.mp same)
    rw [dropStart?, spelled, ← length, List.take_left, List.drop_left, if_pos same]

end SealedContent.Text
