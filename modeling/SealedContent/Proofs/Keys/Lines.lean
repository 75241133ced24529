import SealedContent.Proofs.Keys.Files

/-! # Files read line by line

A file has one list of lines (`rawLines_eq_iff`), and where a line is not UTF-8 nothing behind it is read
(`textLines_append`). A `LineFormat` is a kind of file with a step for each of its lines. Its imports act by line
(`LineFormat.ActsByLine`) as soon as they are folds whose steps do not depend on what was reported before
(`LineFormat.Folds`).
-/

namespace SealedContent

/-! ## Lines -/

/-- The lines of a file end in line feeds, except that the last one need not if there is anything in it. -/
def HasLines (data : Bytes) (lines : List Bytes) : Prop :=
  (∀ line ∈ lines, 0x0A ∉ line) ∧
    (data = lines.flatMap (· ++ [0x0A]) ∨
      ∃ early last, lines = early ++ [last] ∧ last ≠ [] ∧ data = early.flatMap (· ++ [0x0A]) ++ last)

variable {data front : Bytes} {lines : List Bytes}

theorem HasLines.nil_iff : HasLines data [] ↔ data = [] := by
  constructor
  · rintro ⟨-, rfl | ⟨early, last, none, -, -⟩⟩
    · rfl
    · exact absurd none.symm (List.concat_ne_nil last early)
  · rintro rfl
    exact ⟨List.forall_mem_nil _, .inl rfl⟩

/-- A file with another byte in front, which belongs to the first line. -/
theorem HasLines.cons {line : Bytes} {b : UInt8} (has : HasLines data (line :: lines)) (unbroken : b ≠ 0x0A) :
    HasLines (b :: data) ((b :: line) :: lines) := by
  obtain ⟨all, ends⟩ := has
  obtain ⟨first, others⟩ := List.forall_mem_cons.mp all
  refine ⟨List.forall_mem_cons.mpr ⟨List.not_mem_cons_of_ne_of_not_mem unbroken.symm first, others⟩, ?_⟩
  obtain rfl | ⟨early, last, same, some, rfl⟩ := ends
  · exact .inl rfl
  · cases early with
    | nil =>
      cases same
      exact .inr ⟨[], b :: line, rfl, List.cons_ne_nil _ _, rfl⟩
    | cons _ early =>
      cases same
      exact .inr ⟨(b :: line) :: early, last, rfl, some, rfl⟩

theorem hasLines_rawLines (data : Bytes) : HasLines data (rawLines data) := by
  induction data with
  | nil => exact HasLines.nil_iff.mpr rfl
  | cons b rest inductionHypothesis =>
    rw [rawLines]
    split
    · next breaks =>
      subst breaks
      obtain ⟨all, ends⟩ := inductionHypothesis
      refine ⟨List.forall_mem_cons.mpr ⟨List.not_mem_nil, all⟩, ?_⟩
      obtain same | ⟨early, last, same, some, joined⟩ := ends
      · exact .inl (congrArg _ same)
      · exact .inr ⟨[] :: early, last, congrArg _ same, some, congrArg _ joined⟩
    · next unbroken =>
      cases first : rawLines rest with
      | nil =>
        rw [first] at inductionHypothesis
        obtain rfl := HasLines.nil_iff.mp inductionHypothesis
        refine ⟨List.forall_mem_singleton.mpr fun same => unbroken (List.mem_singleton.mp same).symm, .inr ?_⟩
        exact ⟨[], [b], rfl, List.cons_ne_nil _ _, rfl⟩
      | cons line lines =>
        rw [first] at inductionHypothesis
        exact inductionHypothesis.cons unbroken

theorem rawLines_unbroken {line : Bytes} (unbroken : 0x0A ∉ line) (some : line ≠ []) : rawLines line = [line] := by
  induction line with
  | nil => exact absurd rfl some
  | cons b rest inductionHypothesis =>
    have other : b ≠ 0x0A := fun same => unbroken (same ▸ .head _)
    rw [rawLines, if_neg other]
    cases rest with
    | nil => rfl
    | cons c more => rw [inductionHypothesis (fun member => unbroken (.tail _ member)) (List.cons_ne_nil _ _)]

/-- A file has no other lines. -/
theorem rawLines_eq_iff : rawLines data = lines ↔ HasLines data lines := by
  constructor
  · rintro rfl
    exact hasLines_rawLines data
  · rintro ⟨unbroken, rfl | ⟨early, last, rfl, some, rfl⟩⟩
    · exact rawLines_flatMap unbroken
    · rw [rawLines_flatMap_append fun line member => unbroken line (List.mem_append_left _ member),
        rawLines_unbroken (unbroken last (by simp)) some]

/-- A file that ends in a line feed is its lines, each with a line feed. -/
theorem flatMap_rawLines (front : Bytes) :
    (rawLines (front ++ [0x0A])).flatMap (· ++ [0x0A]) = front ++ [0x0A] := by
  obtain ⟨unbroken, same | ⟨early, last, lines, some, same⟩⟩ := hasLines_rawLines (front ++ [0x0A])
  · exact same.symm
  · -- a last line without a line feed would end in one
    have ends := congrArg List.getLast? same
    rw [List.getLast?_concat, List.getLast?_append, List.getLast?_eq_some_getLast some, Option.some_or] at ends
    have feed : 0x0A ∈ last := Option.some_inj.mp ends ▸ List.getLast_mem some
    exact absurd feed (unbroken last (by rw [lines]; simp))

/-- Behind a line feed a file goes on with the lines of the rest. -/
theorem rawLines_break (front back : Bytes) :
    rawLines (front ++ [0x0A] ++ back) = rawLines (front ++ [0x0A]) ++ rawLines back := by
  rw [← rawLines_flatMap_append (hasLines_rawLines _).1, flatMap_rawLines]

theorem count_flatMap (unbroken : ∀ line ∈ lines, 0x0A ∉ line) :
    (lines.flatMap (· ++ [0x0A])).count 0x0A = lines.length := by
  induction lines with
  | nil => rfl
  | cons line rest inductionHypothesis =>
    obtain ⟨first, others⟩ := List.forall_mem_cons.mp unbroken
    rw [List.flatMap_cons, List.count_append, List.count_append, List.count_eq_zero.mpr first,
      inductionHypothesis others, List.count_singleton_self, List.length_cons]
    omega

theorem length_rawLines (front : Bytes) : (rawLines (front ++ [0x0A])).length = (front ++ [0x0A]).count 0x0A := by
  rw [← count_flatMap (hasLines_rawLines _).1, flatMap_rawLines]

/-! ## Texts -/

/-- Behind a line that is not UTF-8 nothing is read. -/
theorem textLines_append (first second : List Bytes) : textLines (first ++ second) =
    if (textLines first).2 then ((textLines first).1 ++ (textLines second).1, (textLines second).2)
    else textLines first := by
  induction first with
  | nil => rfl
  | cons line rest inductionHypothesis =>
    rw [List.cons_append, textLines, textLines]
    cases Utf8.decode? line with
    | none => rfl
    | some text =>
      dsimp only
      rw [inductionHypothesis]
      split
      · rfl
      · rfl

theorem length_textLines (complete : (textLines lines).2 = true) : (textLines lines).1.length = lines.length := by
  induction lines with
  | nil => rfl
  | cons line rest inductionHypothesis =>
    rw [textLines] at complete ⊢
    cases decodes : Utf8.decode? line with
    | none =>
      rw [decodes] at complete
      cases complete
    | some text =>
      rw [decodes] at complete
      exact congrArg (· + 1) (inductionHypothesis complete)

/-- Lines are all texts, or there is a first one that is none. -/
theorem texts_or_broken (lines : List Bytes) : (∃ texts : List String, lines = texts.map Utf8.encode) ∨
    ∃ (texts : List String) (line : Bytes) (after : List Bytes),
      lines = texts.map Utf8.encode ++ line :: after ∧ ∀ text, line ≠ Utf8.encode text := by
  induction lines with
  | nil => exact .inl ⟨[], rfl⟩
  | cons first rest inductionHypothesis =>
    by_cases good : ∃ text, first = Utf8.encode text
    · obtain ⟨text, rfl⟩ := good
      obtain ⟨texts, rfl⟩ | ⟨texts, line, after, rfl, broken⟩ := inductionHypothesis
      · exact .inl ⟨text :: texts, rfl⟩
      · exact .inr ⟨text :: texts, line, after, rfl, broken⟩
    · exact .inr ⟨[], first, rest, rfl, fun text same => good ⟨text, same⟩⟩

theorem textLines_stopped (texts : List String) {line : Bytes} (broken : ∀ text, line ≠ Utf8.encode text)
    (after : List Bytes) : textLines (texts.map Utf8.encode ++ line :: after) = (texts.map String.toList, false) := by
  have refused : Utf8.decode? line = none := by
    cases decodes : Utf8.decode? line with
    | none => rfl
    | some text => exact absurd (Utf8.decode?_eq_some_iff.mp decodes) (broken _)
  rw [textLines_append, textLines_encode, if_pos rfl, textLines, refused, List.append_nil]

/-- Texts with a line feed behind each of them. -/
def fileOf (texts : List String) : Bytes := (texts.map Utf8.encode).flatMap (· ++ [0x0A])

/-! ## Imports of lines -/

/-- A kind of file that is imported line by line. -/
structure LineFormat (Report : Type) where
  load : KeyRing → Bytes → ImportResult Report
  /-- What a line does, which knows its number. -/
  Step : Nat → List Char → KeyRing × Report → KeyRing × Report → Prop
  /-- The report of a file without lines. -/
  start : Report
  /-- A report, and the one of what follows behind a number of lines. -/
  join : Nat → Report → Report → Report

namespace LineFormat

variable {Report σ : Type} {format : LineFormat Report} {act : Nat → List Char → σ → σ}

/-- Lines do what they do one after another, counted from a number on. -/
inductive Run (format : LineFormat Report) : Nat → List String → KeyRing × Report → KeyRing × Report → Prop
  | done {number : Nat} {state : KeyRing × Report} : Run format number [] state state
  | line {number : Nat} {text : String} {rest : List String} {state middle final : KeyRing × Report}
    (step : format.Step number text.toList state middle) (run : Run format (number + 1) rest middle final) :
    Run format number (text :: rest) state final

/-- An import of UTF-8 lines succeeds with what a run over them leaves, and there is one such run. It stops at a line
    that is not UTF-8, and leaves what the lines before it do. A file may be cut behind a line feed. -/
structure ActsByLine (format : LineFormat Report) : Prop where
  run : ∀ (ring : KeyRing) (data : Bytes) (texts : List String), HasLines data (texts.map Utf8.encode) → ∃ report,
    (format.load ring data).report = .ok report ∧
    ∀ final, format.Run 1 texts (ring, format.start) final ↔ final = ((format.load ring data).ring, report)
  stop : ∀ (ring : KeyRing) (data : Bytes) (texts : List String) (line : Bytes) (after : List Bytes),
    HasLines data (texts.map Utf8.encode ++ line :: after) → (∀ text, line ≠ Utf8.encode text) →
    (format.load ring data).report = .error .notUtf8 ∧
    (format.load ring data).ring = (format.load ring (fileOf texts)).ring
  joined : ∀ (ring : KeyRing) (front back : Bytes),
    let early := front ++ [0x0A]
    let first := format.load ring early
    let whole := format.load ring (early ++ back)
    (∀ report, first.report = .ok report →
      let second := format.load first.ring back
      whole.ring = second.ring ∧ whole.report = second.report.map (format.join (early.count 0x0A) report)) ∧
    ∀ error, first.report = .error error → whole.ring = first.ring ∧ whole.report = .error error

/-- A value is stored by a text, and none by the texts behind it. -/
def StoredLast {ν : Type} (Stores : List Char → ν → Prop) (texts : List String) (value : ν) : Prop :=
  ∃ before text after, texts = before ++ text :: after ∧ Stores text.toList value ∧
    ∀ later ∈ after, ∀ other, ¬Stores later.toList other

/-- What some texts leave is the value that they store last, or what was there if they store none. -/
def Settles {ν μ : Type} (Stores : List Char → ν → Prop) (kept : ν → μ) (texts : List String) (before after : μ) :
    Prop :=
  (∃ value, StoredLast Stores texts value ∧ after = kept value) ∨
    (∀ text ∈ texts, ∀ value, ¬Stores text.toList value) ∧ after = before

theorem Run.settles {ν μ : Type} {Stores : List Char → ν → Prop} {kept : ν → μ} {held : KeyRing → μ}
    (each : ∀ number line state final, format.Step number line state final →
      (∃ value, Stores line value ∧ held final.1 = kept value) ∨
        (∀ value, ¬Stores line value) ∧ held final.1 = held state.1)
    {number : Nat} {texts : List String} {state final : KeyRing × Report} (run : format.Run number texts state final) :
    Settles Stores kept texts (held state.1) (held final.1) := by
  induction run with
  | done => exact .inr ⟨List.forall_mem_nil _, rfl⟩
  | @line number text rest state middle final step _ inductionHypothesis =>
    obtain ⟨value, ⟨before, last, after, rfl, stores, none⟩, left⟩ | ⟨none, left⟩ := inductionHypothesis
    · exact .inl ⟨value, ⟨text :: before, last, after, rfl, stores, none⟩, left⟩
    · obtain ⟨value, stores, here⟩ | ⟨silent, here⟩ := each _ _ _ _ step
      · exact .inl ⟨value, ⟨[], text, rest, rfl, stores, none⟩, left.trans here⟩
      · exact .inr ⟨List.forall_mem_cons.mpr ⟨silent, none⟩, left.trans here⟩

/-- A function for each line, applied to the lines one after another. -/
def fold (act : Nat → List Char → σ → σ) : Nat → List (List Char) → σ → σ
  | _, [], state => state
  | number, line :: rest, state => fold act (number + 1) rest (act number line state)

theorem fold_append (first second : List (List Char)) (number : Nat) (state : σ) :
    fold act number (first ++ second) state =
      fold act (number + first.length) second (fold act number first state) := by
  induction first generalizing number state with
  | nil => rfl
  | cons line rest inductionHypothesis =>
    rw [List.cons_append, fold, inductionHypothesis, fold, List.length_cons, Nat.add_right_comm, Nat.add_assoc]

/-- The steps of a format are those of a function, its imports are the folds, and what was reported before stays in
    front of what a line reports. -/
structure Folds (format : LineFormat Report) (act : Nat → List Char → KeyRing × Report → KeyRing × Report) :
    Prop where
  step : ∀ number line state final, format.Step number line state final ↔ final = act number line state
  ring : ∀ ring data, (format.load ring data).ring =
    (fold act 1 (textLines (rawLines data)).1 (ring, format.start)).1
  report : ∀ ring data, (format.load ring data).report = if (textLines (rawLines data)).2
    then .ok (fold act 1 (textLines (rawLines data)).1 (ring, format.start)).2 else .error .notUtf8
  behind : ∀ count number line before state,
    act (count + number) line (state.1, format.join count before state.2) =
      ((act number line state).1, format.join count before (act number line state).2)
  nothing : ∀ count before, format.join count before format.start = before

namespace Folds

variable {act : Nat → List Char → KeyRing × Report → KeyRing × Report} (folds : format.Folds act)
include folds

theorem run_iff {number : Nat} {texts : List String} {state final : KeyRing × Report} :
    format.Run number texts state final ↔ final = fold act number (texts.map String.toList) state := by
  induction texts generalizing number state with
  | nil => exact ⟨fun run => by cases run; rfl, fun same => same ▸ .done⟩
  | cons text rest inductionHypothesis =>
    constructor
    · intro run
      cases run with
      | line step run =>
        rw [folds.step] at step
        rw [inductionHypothesis.mp run, step]
        rfl
    · rintro rfl
      exact .line ((folds.step ..).mpr rfl) (inductionHypothesis.mpr rfl)

theorem fold_behind (count number : Nat) (lines : List (List Char)) (before : Report) (state : KeyRing × Report) :
    fold act (count + number) lines (state.1, format.join count before state.2) =
      ((fold act number lines state).1, format.join count before (fold act number lines state).2) := by
  induction lines generalizing number state with
  | nil => rfl
  | cons line rest inductionHypothesis => rw [fold, folds.behind, Nat.add_assoc, inductionHypothesis, fold]

/-- The lines of a second file are read behind those of a first one as they are alone. -/
theorem fold_joined (first second : List (List Char)) (ring : KeyRing) :
    let early := fold act 1 first (ring, format.start)
    let late := fold act 1 second (early.1, format.start)
    fold act 1 (first ++ second) (ring, format.start) = (late.1, format.join first.length early.2 late.2) := by
  intro early late
  have behind := folds.fold_behind first.length 1 second early.2 (early.1, format.start)
  rw [folds.nothing] at behind
  rw [fold_append, Nat.add_comm]
  exact behind

theorem actsByLine : format.ActsByLine where
  run ring data texts has := by
    have lines := rawLines_eq_iff.mpr has
    refine ⟨(fold act 1 (texts.map String.toList) (ring, format.start)).2, ?_, fun final => ?_⟩
    · rw [folds.report, lines, textLines_encode, if_pos rfl]
    · rw [folds.run_iff, folds.ring, lines, textLines_encode]
  stop ring data texts line after has broken := by
    have unbroken : ∀ line ∈ texts.map Utf8.encode, 0x0A ∉ line :=
      fun line member => has.1 line (List.mem_append_left _ member)
    rw [folds.report, folds.ring, folds.ring, rawLines_eq_iff.mpr has, textLines_stopped texts broken, fileOf,
      rawLines_flatMap unbroken, textLines_encode]
    exact ⟨if_neg Bool.false_ne_true, rfl⟩
  joined ring front back := by
    have cut := congrArg textLines (rawLines_break front back)
    rw [textLines_append] at cut
    intro early first whole
    have firstReport := folds.report ring early
    cases complete : (textLines (rawLines early)).2 with
    | true =>
      -- the lines of the second file follow those of the first, with numbers that go on
      rw [if_pos complete] at cut firstReport
      refine ⟨fun report same => ?_, fun error fails => by cases firstReport.symm.trans fails⟩
      cases firstReport.symm.trans same
      have joined := folds.fold_joined (textLines (rawLines early)).1 (textLines (rawLines back)).1 ring
      rw [length_textLines complete, length_rawLines] at joined
      intro second
      have firstRing : first.ring = _ := folds.ring ring early
      have secondRing : second.ring = _ := folds.ring first.ring back
      have secondReport : second.report = _ := folds.report first.ring back
      have wholeRing : whole.ring = _ := folds.ring ring (early ++ back)
      have wholeReport : whole.report = _ := folds.report ring (early ++ back)
      rw [cut, joined] at wholeRing wholeReport
      rw [wholeRing, secondRing, wholeReport, secondReport, firstRing]
      refine ⟨rfl, ?_⟩
      split
      · rfl
      · rfl
    | false =>
      -- nothing of the second file is read
      have stopped : (textLines (rawLines early)).2 ≠ true := by rw [complete]; exact Bool.false_ne_true
      rw [if_neg stopped] at cut firstReport
      refine ⟨fun report same => (by cases firstReport.symm.trans same), fun error fails => ?_⟩
      cases firstReport.symm.trans fails
      have wholeRing : whole.ring = _ := folds.ring ring (early ++ back)
      have wholeReport : whole.report = _ := folds.report ring (early ++ back)
      rw [cut] at wholeRing wholeReport
      exact ⟨wholeRing.trans (folds.ring ring early).symm, wholeReport.trans (if_neg stopped)⟩

end Folds

end LineFormat

end SealedContent
