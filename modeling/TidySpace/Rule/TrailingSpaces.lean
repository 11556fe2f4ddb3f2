import TidySpace.Options.Curly
import TidySpace.Rule
import TidySpace.Text.Blank
import TidySpace.Text.Line

/-! # The trailing spaces rule

Reports every trailing run of a text, the spaces and tabs at the end of a line, with the edit that
deletes it. A line of nothing else can be left alone: that is the rule's one option, a flag in earnest,
where null is refused.
-/

namespace TidySpace

/-! ### Trailing runs -/

/-- The spaces and tabs at the end of a line: where they are, by line and column from 1 and by
bytes. -/
structure TrailingRun where
  line : Nat
  column : Nat
  start : Nat
  stop : Nat
  deriving DecidableEq, Repr

namespace TrailingRun

/-- The run at the end of a line, if there is one. -/
def ofLine? (skipBlank : Bool) (line : Text.Line) : Option TrailingRun :=
  let kept := Text.dropTrailing Text.isGap line.content
  if kept.length = line.content.length ∨ (skipBlank ∧ kept.isEmpty) then none
  else
    some ⟨line.number, kept.length + 1, line.start + Utf8.width kept,
      line.start + Utf8.width line.content⟩

def scan (text : List Char) (skipBlank : Bool) : List TrailingRun :=
  (Text.split text).filterMap (ofLine? skipBlank)

end TrailingRun

/-! ### Options -/

structure TrailingConfig where
  skipBlankLines : Bool := false
  deriving DecidableEq, Repr

namespace TrailingConfig

def keys : List (String × String) := [("skipBlankLines", "skip_blank_lines")]

def readStrictFlag : Value → Except FieldFault (Option Bool)
  | .bool b => .ok (some b)
  | _ => .error .notABoolean

def read (v : Value) : Except OptionsFault TrailingConfig :=
  match v with
  | .object ms =>
    let flag := readMember ms readStrictFlag "skipBlankLines" "skip_blank_lines"
    let unknown := ((Members.keys ms).filter fun key => !isKnownKey ms keys key).map
      fun key => (key, FieldFault.unknownKey)
    let faults := faultOf flag ++ unknown
    if faults.isEmpty then .ok ⟨(valueOf none flag).getD false⟩
    else .error (.fields faults none)
  | _ => .error .notAnObject

end TrailingConfig

/-! ### The rule -/

namespace TrailingSpaces

def id : String := "style.no_trailing_spaces"

def message : String := "Trailing spaces not allowed."

def report (run : TrailingRun) : Report where
  location := .place run.line run.column
  message := message
  fix := [⟨run.start, run.stop, []⟩]
  span := some (run.start, run.stop)
  extra := .object [("node_type", .text "program")]

/-- The findings in a JavaScript file; files of other languages have none. -/
def visit (view : FileView) : Except Failure (List Finding) :=
  if view.languageName? ≠ some "javascript" then .ok []
  else
    match TrailingConfig.read (Rule.givenOptions view.options) with
    | .error fault => .error (.badOptions fault)
    | .ok config =>
      .ok ((TrailingRun.scan view.text config.skipBlankLines).map fun run =>
        (report run).finding id view.path (.text "warn") view.source.toBuffer)

def rule : Rule where
  id := id
  languages := ["javascript"]
  defaultSeverity := "warn"
  needsTree := false
  check? := some fun v =>
    match TrailingConfig.read (Rule.givenOptions v) with
    | .error fault => some fault
    | .ok _ => none
  visit := visit

end TrailingSpaces

end TidySpace
