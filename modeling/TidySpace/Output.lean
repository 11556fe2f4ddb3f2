import TidySpace.Failure
import TidySpace.Finding
import TidySpace.Json.Writer
import TidySpace.Text.Ascending

/-! # Output of a run

A run is told in one of two formats.

* A document is one object: counts, findings and metrics. Each finding has the range from the place
  shown to the end of what it covers. The end is known where the text of its file is, and is the start
  otherwise.
* A summary is lines to read: counts, then the findings of each file below its path, then the times
  taken. Files are in order, and the findings of a file in the order in which they come.
-/

namespace TidySpace

/-- What a run has to tell. -/
structure Run where
  findings : List Finding
  files : Int
  rules : Int
  metrics : Members

/-- The texts of files, as far as they are known. -/
abbrev Texts := List (String × List Char)

/-! ### The document -/

namespace Document

def protocolVersion : String := "1"

def engineVersion : String := "0.1.0"

def ofEdit (e : Edit) : Value :=
  .object [("start_byte", .int e.start), ("end_byte", .int e.stop),
    ("replacement", .text (String.ofList e.replacement))]

/-- A line or column; one that is missing or zero is the first. -/
def orFirst (n : Option Int) : Int :=
  match n with
  | none => 1
  | some n => if n = 0 then 1 else n

/-- Where the range of a finding ends, given the text of its file. -/
def rangeEnd (b : Option Buffer) (f : Finding) : Int × Int :=
  match b with
  | some b => ((b.position f.stop).line, (b.position f.stop).column)
  | none => (orFirst f.line, orFirst f.column)

def rangeOf (b : Option Buffer) (f : Finding) : Value :=
  let (endLine, endColumn) := rangeEnd b f
  .object [("startLine", .int (orFirst f.line)), ("startCol", .int (orFirst f.column)),
    ("endLine", .int endLine), ("endCol", .int endColumn)]

/-- A finding as an object. Edits and extra data appear if there are any. -/
def ofFinding (b : Option Buffer) (f : Finding) : Value :=
  let edits := f.fix.getD []
  .object <|
    [("rule_id", .text f.rule), ("message", .text f.message), ("file_path", .text f.file),
      ("start_byte", .int f.start), ("end_byte", .int f.stop), ("range", rangeOf b f),
      ("severity", f.severity)] ++
    (if edits.isEmpty then [] else [("autofix", .list (edits.map ofEdit))]) ++
    (if f.extra.isGiven then [("meta", f.extra)] else [])

def membersOf (run : Run) (texts : Texts) : Members :=
  let buffers := texts.map fun t => (t.1, Buffer.ofText t.2)
  [("spacelint.protocol", .text protocolVersion), ("engine_version", .text engineVersion),
    ("files_scanned", .int run.files), ("rules_run", .int run.rules),
    ("findings", .list (run.findings.map fun f => ofFinding (buffers.lookup f.file) f))]

def ofRun (run : Run) (texts : Texts) : Value :=
  .object (membersOf run texts ++ [("metrics", .object run.metrics)])

def render (run : Run) (texts : Texts) : String := Json.render (ofRun run texts)

end Document

/-! ### The summary -/

namespace Summary

open Decimal (Binary64)

def padTo (width : Nat) (s : String) : String :=
  s ++ String.ofList (List.replicate (width - s.length) ' ')

/-- A severity in its column. Truth values are numbers there, and what has no plain text is
refused. -/
def severityColumn (v : Value) : Except Failure String :=
  match v with
  | .text s => .ok (padTo 5 s)
  | .bool b => .ok (padTo 5 (if b then "1" else "0"))
  | .int n => .ok (padTo 5 (toString n))
  | .real x => .ok (padTo 5 x.render)
  | _ => .error (.mismatch .wrongKind)

def numberText (n : Option Int) : String := n.elim "None" toString

def findingLine (f : Finding) : Except Failure String := do
  let severity ← severityColumn f.severity
  return "  " ++ numberText f.line ++ ":" ++ numberText f.column ++ "  " ++ severity ++ "  " ++
    f.message ++ " (" ++ f.rule ++ ")" ++ (if (f.fix.getD []).isEmpty then "" else " [fixable]")

def fileLines (findings : List Finding) (path : String) : Except Failure (List String) := do
  let lines ← (findings.filter (·.file == path)).mapM findingLine
  return path :: lines ++ [""]

def timeText (v : Value) : Except Failure String :=
  let whole (n : Int) : Except Failure String :=
    match Binary64.ofInt? n with
    | some x => .ok x.renderOnePlace
    | none => .error .numberTooLarge
  match v with
  | .real x => .ok x.renderOnePlace
  | .int n => whole n
  | .bool b => whole (if b then 1 else 0)
  | .text _ => .error .textForNumber
  | _ => .error (.mismatch .wrongKind)

def metric (run : Run) (key : String) : Value :=
  (Members.get? run.metrics key).getD (.real (Binary64.zero false))

def render (run : Run) : Except Failure String := do
  let paths := Text.ascending (run.findings.map Finding.file)
  let files ← paths.mapM (fileLines run.findings)
  let parseTime ← timeText (metric run "parse_ms")
  let totalTime ← timeText (metric run "total_ms")
  return "\n".intercalate <|
    ["Scanned " ++ toString run.files ++ " files with " ++ toString run.rules ++ " rules",
      "Found " ++ toString run.findings.length ++ " issues", ""] ++ files.flatten ++
    ["Parse time: " ++ parseTime ++ "ms, total time: " ++ totalTime ++ "ms"]

end Summary

/-! ### Formats -/

inductive Format where
  | json
  | pretty
  deriving DecidableEq, Repr

namespace Format

def ofName? : String → Option Format
  | "json" => some .json
  | "pretty" => some .pretty
  | _ => none

def render (run : Run) (texts : Texts) : Format → Except Failure String
  | .json => .ok (Document.render run texts)
  | .pretty => Summary.render run

def renderNamed (name : String) (run : Run) (texts : Texts) : Except Failure String :=
  match ofName? name with
  | some format => format.render run texts
  | none => .error (.unknownFormat name)

end Format

end TidySpace
