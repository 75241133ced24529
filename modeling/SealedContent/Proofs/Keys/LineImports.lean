import SealedContent.Proofs.Keys.KeyLines
import SealedContent.Proofs.Keys.TitleKeys

/-! # Key files act by line

The lines of title-key files are read like those of key files (`TitleKeyLine.means_iff`), but those that are rejected
are reported with their number. Both kinds of file are imported line by line, and what a slot or an entry holds at the
end is what the last line for it stores: `imports_by_line`.
-/

namespace SealedContent

open Text (trim isBlank splitFirst?)

variable {line : List Char}

/-! ## Lines of title keys -/

namespace TitleKeyLine

/-- A rights ID and a key stand around a comma, an equals sign or a bar. -/
def separates (c : Char) : Bool := c = ',' || c = '=' || c = '|'

theorem marks (c : Char) (blank : isBlank c = true) : separates c = false := by
  refine Bool.eq_false_iff.mpr fun marked => ?_
  simp only [separates, Bool.or_eq_true, decide_eq_true_iff] at marked
  obtain (rfl | rfl) | rfl := marked
  all_goals cases blank

/-- What a line of a title-key file means, if it is neither blank nor a comment. -/
inductive Means (line : List Char) : Option (Except TitleKeyFault (RightsId × Aes.Block)) → Prop
  | blank (silent : Silent line) : Means line none
  | noSeparator (speaks : ¬Silent line) (unmarked : ∀ c ∈ line, separates c = false) :
    Means line (some (.error .noSeparator))
  | rightsId {name value : List Char} (fields : Fields separates line name value)
    (misfits : ∀ id : RightsId, ¬Spells name id.toBytes) : Means line (some (.error (.rightsId (String.ofList name))))
  | key {name value : List Char} {id : RightsId} (fields : Fields separates line name value)
    (spelled : Spells name id.toBytes) (misfits : ∀ key : Aes.Block, ¬Spells value key.toBytes) :
    Means line (some (.error (.key (String.ofList value))))
  | entry {name value : List Char} {id : RightsId} {key : Aes.Block} (fields : Fields separates line name value)
    (spelledId : Spells name id.toBytes) (spelledKey : Spells value key.toBytes) : Means line (some (.ok (id, key)))

theorem readBlock?_eq_some_iff {text : List Char} {block : Aes.Block} :
    readBlock? text = some block ↔ Spells (trim text) block.toBytes := by
  rw [readBlock?, Option.map_eq_some_iff]
  constructor
  · rintro ⟨bytes, decodes, rfl⟩
    obtain ⟨spelled, long⟩ := decodeExact?_eq_some_iff.mp decodes
    rwa [Aes.Block.toBytes_ofBytes long]
  · intro spelled
    exact ⟨_, decodeExact?_eq_some_iff.mpr ⟨spelled, Aes.Block.length_toBytes block⟩, Aes.Block.ofBytes_toBytes block⟩

theorem readBlock?_eq_none_iff {text : List Char} :
    readBlock? text = none ↔ ∀ block : Aes.Block, ¬Spells (trim text) block.toBytes := by
  rw [Option.eq_none_iff_forall_ne_some]
  exact forall_congr' fun block => not_congr readBlock?_eq_some_iff

def read (line : List Char) : Option (Except TitleKeyFault (RightsId × Aes.Block)) :=
  (lineContent? line).map readTitleKeyLine

theorem means_read (line : List Char) : Means line (read line) := by
  by_cases silent : Silent line
  · rw [read, lineContent?_silent silent]
    exact .blank silent
  · rw [read, lineContent?_speaks silent, Option.map_some, readTitleKeyLine]
    split
    · next none => exact .noSeparator silent ((unmarked_iff marks).mpr none)
    · next before after found =>
      have fields : Fields separates line (trim before) (trim after) :=
        (fields_iff marks).mpr ⟨silent, before, after, found, rfl, rfl⟩
      split
      · next refused => exact .rightsId fields (readBlock?_eq_none_iff.mp refused)
      · next id readId =>
        have spelled := readBlock?_eq_some_iff.mp readId
        split
        · next refused => exact .key fields spelled (readBlock?_eq_none_iff.mp refused)
        · next key readKey => exact .entry fields spelled (readBlock?_eq_some_iff.mp readKey)

theorem means_iff {said : Option (Except TitleKeyFault (RightsId × Aes.Block))} :
    Means line said ↔ said = read line := by
  refine ⟨fun means => ?_, fun same => same ▸ means_read line⟩
  have cut {name value : List Char} (fields : Fields separates line name value) : ∃ before after,
      lineContent? line = some (trim line) ∧
      splitFirst? (fun c => c = ',' || c = '=' || c = '|') (trim line) = some (before, after) ∧
      trim before = name ∧ trim after = value := by
    obtain ⟨speaks, before, after, found, parts⟩ := (fields_iff marks).mp fields
    exact ⟨before, after, lineContent?_speaks speaks, found, parts⟩
  cases means with
  | blank silent => rw [read, lineContent?_silent silent, Option.map_none]
  | noSeparator speaks unmarked =>
    have none : splitFirst? (fun c => c = ',' || c = '=' || c = '|') (trim line) = none :=
      (unmarked_iff marks).mp unmarked
    simp only [read, lineContent?_speaks speaks, Option.map_some, readTitleKeyLine, none]
  | rightsId fields misfits =>
    obtain ⟨before, after, content, found, rfl, rfl⟩ := cut fields
    simp only [read, content, Option.map_some, readTitleKeyLine, found, readBlock?_eq_none_iff.mpr misfits]
  | key fields spelled misfits =>
    obtain ⟨before, after, content, found, rfl, rfl⟩ := cut fields
    simp only [read, content, Option.map_some, readTitleKeyLine, found, readBlock?_eq_some_iff.mpr spelled,
      readBlock?_eq_none_iff.mpr misfits]
  | entry fields spelledId spelledKey =>
    obtain ⟨before, after, content, found, rfl, rfl⟩ := cut fields
    simp only [read, content, Option.map_some, readTitleKeyLine, found, readBlock?_eq_some_iff.mpr spelledId,
      readBlock?_eq_some_iff.mpr spelledKey]

end TitleKeyLine

/-! ### What they do -/

/-- The ring with one entry of its dictionary added or replaced. -/
structure KeyRing.Enters (ring : KeyRing) (id : RightsId) (key : Aes.Block) (left : KeyRing) : Prop where
  entries : ∀ other, left.titleKeys.get? other = if other = id then some key else ring.titleKeys.get? other
  known : ∀ slot, left.known? slot = ring.known? slot
  ticketKey : left.ticketKey = ring.ticketKey

theorem KeyRing.enters_iff {ring left : KeyRing} {id : RightsId} {key : Aes.Block} :
    ring.Enters id key left ↔ left = ring.addTitleKey id key := by
  constructor
  · rintro ⟨entries, known, ticketKey⟩
    refine ext_known (TitleKeys.ext_get? fun other => ?_) ticketKey known
    exact (entries other).trans (TitleKeys.get?_insert ..).symm
  · rintro rfl
    exact ⟨fun other => TitleKeys.get?_insert .., fun _ => rfl, rfl⟩

namespace TitleKeyLine

/-- What a line of a title-key file does to a ring and a report. -/
inductive Step (number : Nat) (line : List Char) : KeyRing × TitleKeyReport → KeyRing × TitleKeyReport → Prop
  | passed {state : KeyRing × TitleKeyReport} (means : Means line none) : Step number line state state
  | rejected {ring : KeyRing} {report : TitleKeyReport} {fault : TitleKeyFault}
    (means : Means line (some (.error fault))) :
    Step number line (ring, report) (ring, { report with rejected := report.rejected ++ [(number, fault)] })
  | stored {ring left : KeyRing} {report : TitleKeyReport} {id : RightsId} {key : Aes.Block}
    (means : Means line (some (.ok (id, key)))) (enters : ring.Enters id key left) :
    Step number line (ring, report) (left, { report with loaded := report.loaded + 1 })

/-- A line as a function. -/
def act (number : Nat) (line : List Char) (state : KeyRing × TitleKeyReport) : KeyRing × TitleKeyReport :=
  (read line).elim state fun said => (state.1.applyTitleKeyLine (number, said), state.2.add (number, said))

theorem step_iff {number : Nat} {line : List Char} {state final : KeyRing × TitleKeyReport} :
    Step number line state final ↔ final = act number line state := by
  rw [act]
  constructor
  · intro step
    cases step with
    | passed means =>
      rw [← means_iff.mp means]
      rfl
    | rejected means =>
      rw [← means_iff.mp means]
      rfl
    | stored means enters =>
      rw [← means_iff.mp means, KeyRing.enters_iff.mp enters]
      rfl
  · rintro rfl
    have means := means_read line
    cases said : read line with
    | none => exact .passed (said ▸ means)
    | some outcome =>
      rw [said] at means
      cases outcome with
      | error fault => exact .rejected means
      | ok entry => exact .stored means (KeyRing.enters_iff.mpr rfl)

theorem Means.unique {line : List Char} {said other : Option (Except TitleKeyFault (RightsId × Aes.Block))}
    (means : Means line said) (again : Means line other) : said = other :=
  (means_iff.mp means).trans (means_iff.mp again).symm

/-- An entry is left as the line stores it, or as it was. -/
theorem Step.settles {number : Nat} {line : List Char} {state final : KeyRing × TitleKeyReport}
    (step : Step number line state final) (id : RightsId) :
    (∃ key, Means line (some (.ok (id, key))) ∧ final.1.titleKeys.get? id = some key) ∨
      (∀ key, ¬Means line (some (.ok (id, key)))) ∧ final.1.titleKeys.get? id = state.1.titleKeys.get? id := by
  cases step with
  | passed means => exact .inr ⟨fun key stores => (by cases means.unique stores), rfl⟩
  | rejected means => exact .inr ⟨fun key stores => (by cases means.unique stores), rfl⟩
  | @stored _ _ _ written key means enters =>
    have left := enters.entries id
    by_cases same : id = written
    · subst same
      exact .inl ⟨key, means, left.trans (if_pos rfl)⟩
    · refine .inr ⟨fun other stores => ?_, left.trans (if_neg same)⟩
      cases means.unique stores
      exact same rfl

end TitleKeyLine

/-- The report of one part of a file, and of the next that stands behind a number of lines. -/
def TitleKeyReport.append (count : Nat) (first second : TitleKeyReport) : TitleKeyReport :=
  ⟨first.loaded + second.loaded,
    first.rejected ++ second.rejected.map fun rejected => (count + rejected.1, rejected.2)⟩

def titleKeyFiles : LineFormat TitleKeyReport where
  load := KeyRing.importTitleKeys
  Step := TitleKeyLine.Step
  start := {}
  join := TitleKeyReport.append

theorem titleKeyFiles_fold (lines : List (List Char)) (number : Nat) (ring : KeyRing) (report : TitleKeyReport) :
    LineFormat.fold TitleKeyLine.act (number + 1) lines (ring, report) =
      let said := (lines.zipIdx number).filterMap fun (line, i) =>
        (lineContent? line).map fun content => (i + 1, readTitleKeyLine content)
      (said.foldl KeyRing.applyTitleKeyLine ring, said.foldl TitleKeyReport.add report) := by
  induction lines generalizing number ring report with
  | nil => rfl
  | cons line rest inductionHypothesis =>
    rw [LineFormat.fold, TitleKeyLine.act, TitleKeyLine.read]
    cases content : lineContent? line with
    | none =>
      have same := inductionHypothesis (number + 1) ring report
      simpa [List.zipIdx_cons, content] using same
    | some text =>
      have same := inductionHypothesis (number + 1) (ring.applyTitleKeyLine (number + 1, readTitleKeyLine text))
        (report.add (number + 1, readTitleKeyLine text))
      simpa [List.zipIdx_cons, content] using same

theorem titleKeyFiles_folds : titleKeyFiles.Folds TitleKeyLine.act where
  step _ _ _ _ := TitleKeyLine.step_iff
  ring ring data := by rw [titleKeyFiles_fold]; rfl
  report ring data := by rw [titleKeyFiles_fold]; rfl
  behind count number line before state := by
    rw [TitleKeyLine.act, TitleKeyLine.act]
    cases TitleKeyLine.read line with
    | none => rfl
    | some outcome =>
      cases outcome with
      | error fault => simp [titleKeyFiles, TitleKeyReport.add, TitleKeyReport.append, KeyRing.applyTitleKeyLine]
      | ok entry =>
        simp [titleKeyFiles, TitleKeyReport.add, TitleKeyReport.append, KeyRing.applyTitleKeyLine, Nat.add_assoc]
  nothing count before := by simp [titleKeyFiles, TitleKeyReport.append]

/-! ## Imports -/

/-- Every file has one list of lines, which are texts up to the first that is not UTF-8. Key files and title-key files
    are imported line by line. A slot ends as the last line that stores a value in it has it, an entry as the last line
    for its ID, and what no line stores is unchanged. -/
theorem imports_by_line :
    (∀ data, ∃! lines, HasLines data lines) ∧
    (∀ lines, (∃ texts : List String, lines = texts.map Utf8.encode) ∨
      ∃ (texts : List String) (line : Bytes) (after : List Bytes),
        lines = texts.map Utf8.encode ++ line :: after ∧ ∀ text, line ≠ Utf8.encode text) ∧
    keyFiles.ActsByLine ∧ titleKeyFiles.ActsByLine ∧
    (∀ texts state final, keyFiles.Run 1 texts state final → ∀ slot, LineFormat.Settles
      (fun line bytes => KeyLine.Means line (.key slot bytes)) KeyRing.nonzero? texts
      (state.1.known? slot) (final.1.known? slot)) ∧
    (∀ texts state final, titleKeyFiles.Run 1 texts state final → ∀ id, LineFormat.Settles
      (fun line key => TitleKeyLine.Means line (some (.ok (id, key)))) some texts
      (state.1.titleKeys.get? id) (final.1.titleKeys.get? id)) := by
  refine ⟨fun data => ⟨rawLines data, hasLines_rawLines data, fun lines has => (rawLines_eq_iff.mpr has).symm⟩,
    texts_or_broken, keyFiles_folds.actsByLine, titleKeyFiles_folds.actsByLine, fun texts state final run slot => ?_,
    fun texts state final run id => ?_⟩
  · exact @LineFormat.Run.settles _ _ _ _ _ _ (fun ring => ring.known? slot)
      (fun number line state final step => KeyLine.Step.settles step slot) _ _ _ _ run
  · exact @LineFormat.Run.settles _ _ _ _ _ _ (fun ring => ring.titleKeys.get? id)
      (fun number line state final step => TitleKeyLine.Step.settles step id) _ _ _ _ run

/-! ### Files with every kind of line -/

/-- A comment, a key, a line without a separator, an unknown name, digits of another length, and the key once more. -/
def sampleTexts : List String :=
  ["# keys", "sd_seed = 000102030405060708090A0B0C0D0E0F", "sd_seed", "nope = 00", "sd_seed = 00",
    "\tSD_SEED,f0f1f2f3f4f5f6f7f8f9fafbfcfdfeff \r"]

/-- An entry, a blank line, and a line with a key that is none. -/
def sampleTitles : List String :=
  ["000102030405060708090A0B0C0D0E0F|f0f1f2f3f4f5f6f7f8f9fafbfcfdfeff", " ",
    "000102030405060708090A0B0C0D0E0F = zz"]

theorem imports_by_line_sample :
    let keys := KeyRing.empty.importKeys (fileOf sampleTexts)
    let titles := KeyRing.empty.importTitleKeys (fileOf sampleTitles)
    let broken := KeyRing.empty.importKeys (fileOf sampleTexts ++ [0xFF])
    HasLines (fileOf sampleTexts) (sampleTexts.map Utf8.encode) ∧
    keyFiles.Run 1 sampleTexts (.empty, {}) (keys.ring, ⟨2, ["nope"], ["sd_seed"]⟩) ∧
    keys.ring.known? ⟨.sdSeed, 0⟩ = some ((List.range 16).map fun i => UInt8.ofNat (0xF0 + i)) ∧
    LineFormat.Settles (fun line bytes => KeyLine.Means line (.key ⟨.sdSeed, 0⟩ bytes)) KeyRing.nonzero? sampleTexts
      none (keys.ring.known? ⟨.sdSeed, 0⟩) ∧
    HasLines (fileOf sampleTitles) (sampleTitles.map Utf8.encode) ∧
    titleKeyFiles.Run 1 sampleTitles (.empty, {}) (titles.ring, ⟨1, [(3, .key "zz")]⟩) ∧
    (∀ text, [0xFF] ≠ Utf8.encode text) ∧ broken.report = .error .notUtf8 ∧ broken.ring = keys.ring := by
  intro keys titles broken
  obtain ⟨keysUnbroken, titlesUnbroken⟩ : (∀ line ∈ sampleTexts.map Utf8.encode, 0x0A ∉ line) ∧
      ∀ line ∈ sampleTitles.map Utf8.encode, 0x0A ∉ line := by decide +kernel
  have hasKeys : HasLines (fileOf sampleTexts) (sampleTexts.map Utf8.encode) := ⟨keysUnbroken, .inl rfl⟩
  have hasTitles : HasLines (fileOf sampleTitles) (sampleTitles.map Utf8.encode) := ⟨titlesUnbroken, .inl rfl⟩
  obtain ⟨keysReport, seed⟩ : keys.report = .ok ⟨2, ["nope"], ["sd_seed"]⟩ ∧
      keys.ring.known? ⟨.sdSeed, 0⟩ = some ((List.range 16).map fun i => UInt8.ofNat (0xF0 + i)) := by
    simp only [keys, KeyRing.importKeys, rawLines_eq_iff.mpr hasKeys, textLines_encode]
    decide +kernel
  have titlesReport : titles.report = .ok ⟨1, [(3, .key "zz")]⟩ := by
    simp only [titles, KeyRing.importTitleKeys, rawLines_eq_iff.mpr hasTitles, textLines_encode]
    decide +kernel
  have hasBroken : HasLines (fileOf sampleTexts ++ [0xFF]) (sampleTexts.map Utf8.encode ++ [[0xFF]]) := by
    refine ⟨fun line member => ?_, .inr ⟨_, [0xFF], rfl, List.cons_ne_nil _ _, rfl⟩⟩
    obtain among | last := List.mem_append.mp member
    · exact keysUnbroken line among
    · rw [List.mem_singleton.mp last]
      decide
  have refused : ∀ text, [0xFF] ≠ Utf8.encode text := by
    intro text same
    have decodes := Utf8.decode?_encode text
    rw [← same] at decodes
    simp [Utf8.decode?, Utf8.scan, Utf8.lead?] at decodes
  obtain ⟨-, -, keyFile, titleFile, slots, -⟩ := imports_by_line
  obtain ⟨keyReport, keysGive, keyRuns⟩ := keyFile.run .empty _ _ hasKeys
  obtain ⟨titleReport, titlesGive, titleRuns⟩ := titleFile.run .empty _ _ hasTitles
  cases keysGive.symm.trans keysReport
  cases titlesGive.symm.trans titlesReport
  have keyRun := (keyRuns _).mpr rfl
  obtain ⟨fails, left⟩ := keyFile.stop .empty _ sampleTexts [0xFF] [] hasBroken refused
  exact ⟨hasKeys, keyRun, seed, slots _ _ _ keyRun ⟨.sdSeed, 0⟩, hasTitles, (titleRuns _).mpr rfl, refused, fails, left⟩

end SealedContent
