import SealedContent.Proofs.Keys.Closure
import SealedContent.Proofs.Keys.Lines
import SealedContent.Proofs.Keys.Spelling

/-! # What the lines of key files do

`KeyLine.Means` is what a line means by its blanks, marks, names and digits, and the reader finds just that
(`KeyLine.means_iff`). A line with a value for a slot overwrites the slot; any other line leaves the ring as it is and
may be reported (`KeyLine.Step`).
-/

namespace SealedContent

open Text (trim isBlank splitFirst?)

/-! ## Parts of a line -/

/-- A line that is blank or a comment. -/
def Silent (line : List Char) : Prop := ∀ c, (trim line).head? = some c → c = ';' ∨ c = '#'

/-- A line is cut in two at its first separator. Blanks around its parts do not count. -/
structure Fields (separates : Char → Bool) (line name value : List Char) : Prop where
  speaks : ¬Silent line
  cut : ∃ before mark after, line = before ++ mark :: after ∧ separates mark = true ∧
    (∀ c ∈ before, separates c = false) ∧ trim before = name ∧ trim after = value

/-- Two digits of either case for every byte. -/
def Spells (digits : List Char) (bytes : Bytes) : Prop := digits.map Char.toLower = (Hex.lower bytes).toList

variable {line name value : List Char}

theorem lineContent?_silent (silent : Silent line) : lineContent? line = none := by
  rw [Silent] at silent
  rw [lineContent?]
  cases content : trim line with
  | nil => rfl
  | cons c rest =>
    rw [content] at silent
    obtain rfl | rfl := silent c rfl
    · rfl
    · rfl

theorem lineContent?_speaks (speaks : ¬Silent line) : lineContent? line = some (trim line) := by
  rw [Silent] at speaks
  rw [lineContent?]
  split
  · next empty => exact absurd (by simp [empty]) speaks
  · next comment => exact absurd (by simp [comment]) speaks
  · next comment => exact absurd (by simp [comment]) speaks
  · next content => rw [content]

section
variable {separates : Char → Bool} (marks : ∀ c, isBlank c = true → separates c = false)
include marks

/-- Marks are found between the blanks of a line. -/
theorem splitFirst?_trim (line : List Char) : (splitFirst? separates line).map (Prod.map trim trim) =
    (splitFirst? separates (trim line)).map (Prod.map trim trim) := by
  obtain ⟨-, before, after, padded, blankBefore, blankAfter⟩ := Text.trim_eq_iff.mp (rfl : trim line = trim line)
  have unmarkedBefore : ∀ c ∈ before, separates c = false := fun c member => marks c (blankBefore c member)
  have unmarkedAfter : ∀ c ∈ after, separates c = false := fun c member => marks c (blankAfter c member)
  cases found : splitFirst? separates (trim line) with
  | none =>
    have unmarked := Text.splitFirst?_eq_none_iff.mp found
    have nothing : splitFirst? separates line = none := by
      refine Text.splitFirst?_eq_none_iff.mpr fun c member => ?_
      rw [padded] at member
      simp only [List.mem_append] at member
      obtain (early | among) | late := member
      · exact unmarkedBefore c early
      · exact unmarked c among
      · exact unmarkedAfter c late
    rw [nothing]
  | some parts =>
    obtain ⟨first, second⟩ := parts
    obtain ⟨mark, content, marked, unmarked⟩ := Text.splitFirst?_eq_some_iff.mp found
    have whole : splitFirst? separates line = some (before ++ first, second ++ after) := by
      refine Text.splitFirst?_eq_some_iff.mpr ⟨mark, ?_, marked, fun c member => ?_⟩
      · rw [padded, content]
        simp only [List.append_assoc, List.cons_append]
      · exact (List.mem_append.mp member).elim (unmarkedBefore c) (unmarked c)
    rw [whole, Option.map_some, Option.map_some, Prod.map_apply, Prod.map_apply, Text.trim_append_left blankBefore,
      Text.trim_append_right blankAfter]

theorem fields_iff : Fields separates line name value ↔ ¬Silent line ∧ ∃ before after,
    splitFirst? separates (trim line) = some (before, after) ∧ trim before = name ∧ trim after = value := by
  have parts (text : List Char) : (splitFirst? separates text).map (Prod.map trim trim) = some (name, value) ↔
      ∃ before after, splitFirst? separates text = some (before, after) ∧ trim before = name ∧ trim after = value := by
    simp [Option.map_eq_some_iff]
  rw [← parts, ← splitFirst?_trim marks, parts]
  simp only [Text.splitFirst?_eq_some_iff]
  constructor
  · rintro ⟨speaks, before, mark, after, same, marked, unmarked, trimmed⟩
    exact ⟨speaks, before, after, ⟨mark, same, marked, unmarked⟩, trimmed⟩
  · rintro ⟨speaks, before, after, ⟨mark, same, marked, unmarked⟩, trimmed⟩
    exact ⟨speaks, before, mark, after, same, marked, unmarked, trimmed⟩

theorem unmarked_iff : (∀ c ∈ line, separates c = false) ↔ splitFirst? separates (trim line) = none := by
  rw [← Text.splitFirst?_eq_none_iff, ← Option.map_eq_none_iff, splitFirst?_trim marks, Option.map_eq_none_iff]

end

theorem decodeExact?_eq_some_iff {size : Nat} {digits : List Char} {bytes : Bytes} :
    Hex.decodeExact? size digits = some bytes ↔ Spells digits bytes ∧ bytes.length = size := by
  rw [Hex.decodeExact?_eq_some_iff, Spells, Hex.lower, String.toList_ofList]

/-! ## Lines of keys -/

namespace KeyLine

/-- A name and a value stand around an equals sign or a comma. -/
def separates (c : Char) : Bool := c = '=' || c = ','

theorem marks (c : Char) (blank : isBlank c = true) : separates c = false := by
  refine Bool.eq_false_iff.mpr fun marked => ?_
  simp only [separates, Bool.or_eq_true, decide_eq_true_iff] at marked
  obtain rfl | rfl := marked
  all_goals cases blank

/-- What a line of a key file means. -/
inductive Means (line : List Char) : KeyLine → Prop
  | blank (silent : Silent line) : Means line .blank
  | noSeparator (speaks : ¬Silent line) (unmarked : ∀ c ∈ line, separates c = false) :
    Means line (.noSeparator (String.ofList (trim line)))
  | unknown {name value : List Char} (fields : Fields separates line name value) (unnamed : Slot.ofName? name = none) :
    Means line (.unknown (String.ofList name))
  | badLength {name value : List Char} {slot : Slot} (fields : Fields separates line name value)
    (named : Slot.ofName? name = some slot)
    (misfits : ∀ bytes, Spells value bytes → bytes.length ≠ slot.family.length) :
    Means line (.badLength (String.ofList name) slot.family.length)
  | key {name value : List Char} {slot : Slot} {bytes : Bytes} (fields : Fields separates line name value)
    (named : Slot.ofName? name = some slot) (spelled : Spells value bytes) (fits : bytes.length = slot.family.length) :
    Means line (.key slot bytes)

theorem means_read (line : List Char) : Means line (read line) := by
  by_cases silent : Silent line
  · rw [read, lineContent?_silent silent]
    exact .blank silent
  · rw [read, lineContent?_speaks silent]
    dsimp only
    split
    · next none => exact .noSeparator silent ((unmarked_iff marks).mpr none)
    · next before after found =>
      have fields : Fields separates line (trim before) (trim after) :=
        (fields_iff marks).mpr ⟨silent, before, after, found, rfl, rfl⟩
      split
      · next unnamed => exact .unknown fields unnamed
      · next slot named =>
        split
        · next bytes decodes =>
          obtain ⟨spelled, fits⟩ := decodeExact?_eq_some_iff.mp decodes
          exact .key fields named spelled fits
        · next refused =>
          refine .badLength fields named fun bytes spelled fits => ?_
          cases refused.symm.trans (decodeExact?_eq_some_iff.mpr ⟨spelled, fits⟩)

theorem means_iff {said : KeyLine} : Means line said ↔ said = read line := by
  refine ⟨fun means => ?_, fun same => same ▸ means_read line⟩
  -- the reader splits what it has trimmed, with the same parts
  have cut {name value : List Char} (fields : Fields separates line name value) : ∃ before after,
      lineContent? line = some (trim line) ∧
      splitFirst? (fun c => c = '=' || c = ',') (trim line) = some (before, after) ∧
      trim before = name ∧ trim after = value := by
    obtain ⟨speaks, before, after, found, parts⟩ := (fields_iff marks).mp fields
    exact ⟨before, after, lineContent?_speaks speaks, found, parts⟩
  cases means with
  | blank silent => rw [read, lineContent?_silent silent]
  | noSeparator speaks unmarked =>
    have none : splitFirst? (fun c => c = '=' || c = ',') (trim line) = none := (unmarked_iff marks).mp unmarked
    simp only [read, lineContent?_speaks speaks, none]
  | unknown fields unnamed =>
    obtain ⟨before, after, content, found, rfl, rfl⟩ := cut fields
    simp only [read, content, found, unnamed]
  | @badLength name value slot fields named misfits =>
    obtain ⟨before, after, content, found, rfl, rfl⟩ := cut fields
    have refused : Hex.decodeExact? slot.family.length (trim after) = none := by
      refine Option.eq_none_iff_forall_ne_some.mpr fun bytes decodes => ?_
      obtain ⟨spelled, fits⟩ := decodeExact?_eq_some_iff.mp decodes
      exact misfits bytes spelled fits
    simp only [read, content, found, named, refused]
  | key fields named spelled fits =>
    obtain ⟨before, after, content, found, rfl, rfl⟩ := cut fields
    simp only [read, content, found, named, decodeExact?_eq_some_iff.mpr ⟨spelled, fits⟩]

end KeyLine

/-! ### What they do -/

/-- The ring with one slot overwritten. Zeros make its key unknown. -/
structure KeyRing.Overwrites (ring : KeyRing) (slot : Slot) (bytes : Bytes) (left : KeyRing) : Prop where
  known : ∀ other, left.known? other = if other = slot then nonzero? bytes else ring.known? other
  titleKeys : left.titleKeys = ring.titleKeys
  ticketKey : left.ticketKey = ring.ticketKey

theorem KeyRing.overwrites_iff {ring left : KeyRing} {slot : Slot} {bytes : Bytes}
    (fits : slot.Exists ∧ bytes.length = slot.family.length) :
    ring.Overwrites slot bytes left ↔ left = ring.set slot bytes := by
  have set : ring.Overwrites slot bytes (ring.set slot bytes) := by
    refine ⟨known?_set fits, ?_, ?_⟩
    all_goals rw [KeyRing.set, dif_pos fits]
  constructor
  · rintro ⟨known, titleKeys, ticketKey⟩
    exact ext_known (titleKeys.trans set.titleKeys.symm) (ticketKey.trans set.ticketKey.symm)
      fun other => (known other).trans (set.known other).symm
  · rintro rfl
    exact set

namespace KeyLine

/-- What a line of a key file does to a ring and a report. -/
inductive Step (line : List Char) : KeyRing × KeyReport → KeyRing × KeyReport → Prop
  | passed {state : KeyRing × KeyReport} (means : Means line .blank ∨ ∃ text, Means line (.noSeparator text)) :
    Step line state state
  | unknown {ring : KeyRing} {report : KeyReport} {name : String} (means : Means line (.unknown name)) :
    Step line (ring, report) (ring, { report with unknown := report.unknown ++ [name] })
  | badLength {ring : KeyRing} {report : KeyReport} {name : String} {expected : Nat}
    (means : Means line (.badLength name expected)) :
    Step line (ring, report) (ring, { report with badLength := report.badLength ++ [name] })
  | stored {ring left : KeyRing} {report : KeyReport} {slot : Slot} {bytes : Bytes}
    (means : Means line (.key slot bytes)) (overwrites : ring.Overwrites slot bytes left) :
    Step line (ring, report) (left, { report with loaded := report.loaded + 1 })

/-- What is stored fits its slot. -/
theorem Means.fits {line : List Char} {slot : Slot} {bytes : Bytes} (means : Means line (.key slot bytes)) :
    slot.Exists ∧ bytes.length = slot.family.length := by
  cases means with
  | key fields named spelled fits => exact ⟨Slot.exists_of_ofName? named, fits⟩

/-- A line as a function. -/
def act (line : List Char) (state : KeyRing × KeyReport) : KeyRing × KeyReport :=
  (state.1.applyLine (read line), state.2.add (read line))

theorem step_iff {line : List Char} {state final : KeyRing × KeyReport} :
    Step line state final ↔ final = act line state := by
  rw [act]
  constructor
  · intro step
    cases step with
    | passed means =>
      obtain means | ⟨text, means⟩ := means
      · rw [← means_iff.mp means]
        rfl
      · rw [← means_iff.mp means]
        rfl
    | unknown means =>
      rw [← means_iff.mp means]
      rfl
    | badLength means =>
      rw [← means_iff.mp means]
      rfl
    | stored means overwrites =>
      rw [← means_iff.mp means, (KeyRing.overwrites_iff means.fits).mp overwrites]
      rfl
  · rintro rfl
    have means := means_read line
    cases said : read line with
    | blank => exact .passed (.inl (said ▸ means))
    | noSeparator text => exact .passed (.inr ⟨text, said ▸ means⟩)
    | unknown name => exact .unknown (said ▸ means)
    | badLength name expected => exact .badLength (said ▸ means)
    | key slot bytes =>
      rw [said] at means
      exact .stored means ((KeyRing.overwrites_iff means.fits).mpr rfl)

theorem Means.unique {line : List Char} {said other : KeyLine} (means : Means line said) (again : Means line other) :
    said = other := (means_iff.mp means).trans (means_iff.mp again).symm

/-- A slot is left as the line stores it, or as it was. -/
theorem Step.settles {line : List Char} {state final : KeyRing × KeyReport} (step : Step line state final)
    (slot : Slot) : (∃ bytes, Means line (.key slot bytes) ∧ final.1.known? slot = KeyRing.nonzero? bytes) ∨
      (∀ bytes, ¬Means line (.key slot bytes)) ∧ final.1.known? slot = state.1.known? slot := by
  cases step with
  | passed means =>
    refine .inr ⟨fun bytes stores => ?_, rfl⟩
    obtain means | ⟨text, means⟩ := means
    all_goals cases means.unique stores
  | unknown means => exact .inr ⟨fun bytes stores => (by cases means.unique stores), rfl⟩
  | badLength means => exact .inr ⟨fun bytes stores => (by cases means.unique stores), rfl⟩
  | @stored _ _ _ written bytes means overwrites =>
    have left := overwrites.known slot
    by_cases same : slot = written
    · subst same
      exact .inl ⟨bytes, means, left.trans (if_pos rfl)⟩
    · refine .inr ⟨fun other stores => ?_, left.trans (if_neg same)⟩
      cases means.unique stores
      exact same rfl

end KeyLine

/-- The report of one part of a file and the next. -/
def KeyReport.append (first second : KeyReport) : KeyReport :=
  ⟨first.loaded + second.loaded, first.unknown ++ second.unknown, first.badLength ++ second.badLength⟩

def keyFiles : LineFormat KeyReport where
  load := KeyRing.importKeys
  Step _ := KeyLine.Step
  start := {}
  join _ := KeyReport.append

theorem keyFiles_fold (lines : List (List Char)) (number : Nat) (ring : KeyRing) (report : KeyReport) :
    LineFormat.fold (fun _ => KeyLine.act) number lines (ring, report) =
      ((lines.map KeyLine.read).foldl KeyRing.applyLine ring, (lines.map KeyLine.read).foldl KeyReport.add report) := by
  induction lines generalizing number ring report with
  | nil => rfl
  | cons line rest inductionHypothesis => exact inductionHypothesis ..

theorem keyFiles_folds : keyFiles.Folds fun _ => KeyLine.act where
  step _ line state final := KeyLine.step_iff
  ring ring data := by rw [keyFiles_fold]; rfl
  report ring data := by rw [keyFiles_fold]; rfl
  behind _ _ line before state := by
    rw [KeyLine.act, KeyLine.act]
    cases KeyLine.read line with
    | blank => rfl
    | noSeparator text => rfl
    | unknown name => simp [keyFiles, KeyReport.add, KeyReport.append, KeyRing.applyLine]
    | badLength name expected => simp [keyFiles, KeyReport.add, KeyReport.append, KeyRing.applyLine]
    | key slot bytes => simp [keyFiles, KeyReport.add, KeyReport.append, KeyRing.applyLine, Nat.add_assoc]
  nothing _ before := by
    simp [keyFiles, KeyReport.append]

end SealedContent
