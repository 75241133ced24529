import SealedContent.Keys.Ring
import SealedContent.Text.Utf8

/-! # Key files

Text files with one key a line:

* `KeyRing.importKeys` reads lines of a name, a separator and hexadecimal digits;
  `KeyRing.exportKeys` writes them.
* `KeyRing.importTitleKeys` reads lines of a rights ID, a separator and a key;
  `KeyRing.exportTitleKeys` writes them in order of rights IDs.

A line is read on its own (`KeyLine.read`, `readTitleKeyLine`) and an import is the fold over the
lines. Rejected lines are reported and change nothing. A line that is not UTF-8 ends the import with
an error; what the lines before it stored is kept.
-/

namespace SealedContent

/-! ## Lines -/

/-- The pieces between line feeds. What follows the last line feed counts if there is anything. -/
def rawLines : Bytes → List Bytes
  | [] => []
  | b :: rest =>
    if b = 0x0A then [] :: rawLines rest
    else match rawLines rest with
      | [] => [[b]]
      | line :: lines => (b :: line) :: lines

/-- The lines up to the first that is not UTF-8, and whether there is no such line. -/
def textLines : List Bytes → List (List Char) × Bool
  | [] => ([], true)
  | line :: rest =>
    match Utf8.decode? line with
    | some text =>
      let (lines, complete) := textLines rest
      (text :: lines, complete)
    | none => ([], false)

/-- The trimmed line, unless it is blank or a comment. -/
def lineContent? (line : List Char) : Option (List Char) :=
  match Text.trim line with
  | [] => none
  | ';' :: _ => none
  | '#' :: _ => none
  | c :: rest => some (c :: rest)

/-- What an import gives: the ring it leaves, its report, and what it warned about. -/
structure ImportResult (Report : Type) where
  ring : KeyRing
  report : Except Error Report
  warnings : List Warning

/-! ## Keys -/

/-- What a line of a key file says. -/
inductive KeyLine where
  /-- A blank line or a comment. -/
  | blank
  /-- No separator stands in the line. -/
  | noSeparator (line : String)
  /-- The name belongs to no slot. -/
  | unknown (name : String)
  /-- The value is not hexadecimal or has another length than the slot. -/
  | badLength (name : String) (expected : Nat)
  /-- A value for a slot. -/
  | key (slot : Slot) (value : Bytes)

/-- Reads a line: a name and a value around the first equals sign or comma. -/
def KeyLine.read (line : List Char) : KeyLine :=
  match lineContent? line with
  | none => .blank
  | some content =>
    match Text.splitFirst? (fun c => c = '=' || c = ',') content with
    | none => .noSeparator (String.ofList content)
    | some (before, after) =>
      let name := Text.trim before
      match Slot.ofName? name with
      | none => .unknown (String.ofList name)
      | some slot =>
        match Hex.decodeExact? slot.family.length (Text.trim after) with
        | some value => .key slot value
        | none => .badLength (String.ofList name) slot.family.length

/-- The slots that an import stored, and the names it could not use. -/
structure KeyReport where
  loaded : Nat := 0
  unknown : List String := []
  badLength : List String := []
deriving DecidableEq, Repr

def KeyReport.add (report : KeyReport) : KeyLine → KeyReport
  | .blank | .noSeparator _ => report
  | .unknown name => { report with unknown := report.unknown ++ [name] }
  | .badLength name _ => { report with badLength := report.badLength ++ [name] }
  | .key _ _ => { report with loaded := report.loaded + 1 }

def KeyLine.warning? : KeyLine → Option Warning
  | .blank | .key _ _ => none
  | .noSeparator line => some (.lineSeparator line)
  | .unknown name => some (.unknownKey name)
  | .badLength name expected => some (.keyLength name expected)

namespace KeyRing

def applyLine (ring : KeyRing) : KeyLine → KeyRing
  | .key slot value => ring.set slot value
  | _ => ring

/-- Imports a key file line by line. -/
def importKeys (ring : KeyRing) (data : Bytes) : ImportResult KeyReport :=
  let (lines, complete) := textLines (rawLines data)
  let lines := lines.map KeyLine.read
  { ring := lines.foldl applyLine ring
    report := if complete then .ok (lines.foldl KeyReport.add {}) else .error .notUtf8
    warnings := lines.filterMap KeyLine.warning? }

/-- The lines of the known keys of one family. -/
def exportFamily (ring : KeyRing) (family : KeyFamily) : List String :=
  (List.range family.slotCount).filterMap fun index =>
    (ring.known? ⟨family, index⟩).map fun value =>
      (Slot.mk family index).name ++ " = " ++ Hex.upper value ++ "\n"

/-- Every known key in the order of key files. The keys of one console are left out unless they are
    asked for. -/
def exportKeys (ring : KeyRing) (includeUnique : Bool) : String :=
  let families := KeyFamily.all.filter fun family =>
    includeUnique || family.purpose ≠ .deviceUnique
  String.join (families.flatMap ring.exportFamily)

end KeyRing

/-! ## Title keys -/

/-- Sixteen bytes written in hexadecimal digits, with blanks around them. -/
def readBlock? (text : List Char) : Option Aes.Block :=
  (Hex.decodeExact? 16 (Text.trim text)).map Aes.Block.ofBytes

/-- Reads a line that is neither blank nor a comment: a rights ID and a key around the first comma,
    equals sign or bar. -/
def readTitleKeyLine (content : List Char) : Except TitleKeyFault (RightsId × Aes.Block) :=
  match Text.splitFirst? (fun c => c = ',' || c = '=' || c = '|') content with
  | none => .error .noSeparator
  | some (before, after) =>
    match readBlock? before with
    | none => .error (.rightsId (String.ofList (Text.trim before)))
    | some id =>
      match readBlock? after with
      | none => .error (.key (String.ofList (Text.trim after)))
      | some key => .ok (id, key)

/-- The entries that an import stored, and the lines it rejected. -/
structure TitleKeyReport where
  loaded : Nat := 0
  rejected : List (Nat × TitleKeyFault) := []
deriving DecidableEq, Repr

/-- The lines of a title-key file with their numbers, counted from one. -/
def titleKeyLines (lines : List (List Char)) :
    List (Nat × Except TitleKeyFault (RightsId × Aes.Block)) :=
  lines.zipIdx.filterMap fun (line, i) =>
    (lineContent? line).map fun content => (i + 1, readTitleKeyLine content)

def TitleKeyReport.add (report : TitleKeyReport) :
    Nat × Except TitleKeyFault (RightsId × Aes.Block) → TitleKeyReport
  | (_, .ok _) => { report with loaded := report.loaded + 1 }
  | (number, .error fault) => { report with rejected := report.rejected ++ [(number, fault)] }

namespace KeyRing

def applyTitleKeyLine (ring : KeyRing) :
    Nat × Except TitleKeyFault (RightsId × Aes.Block) → KeyRing
  | (_, .ok (id, key)) => ring.addTitleKey id key
  | (_, .error _) => ring

/-- Imports a title-key file line by line. -/
def importTitleKeys (ring : KeyRing) (data : Bytes) : ImportResult TitleKeyReport :=
  let (lines, complete) := textLines (rawLines data)
  let lines := titleKeyLines lines
  let report := lines.foldl TitleKeyReport.add {}
  { ring := lines.foldl applyTitleKeyLine ring
    report := if complete then .ok report else .error .notUtf8
    warnings := report.rejected.map fun (number, fault) => .titleKeyLine number fault }

/-- Every title key in order of rights IDs. -/
def exportTitleKeys (ring : KeyRing) : String :=
  String.join (ring.titleKeys.entries.map fun (id, key) =>
    Hex.upper id.toBytes ++ " = " ++ Hex.upper key.toBytes ++ "\n")

end KeyRing

end SealedContent
