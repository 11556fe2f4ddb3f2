import TidySpace.Edit
import TidySpace.Value

/-! # Findings and reports

A `Finding` is one violation in one file. A rule makes it from a `Report`, which says where the
violation is; the place may be a token, a line and column, or a byte offset, and what the report
leaves open follows from it.
-/

namespace TidySpace

/-- A violation. The byte range is what the violation covers; line and column are the place shown,
which need not be the start of the range. The severity is a text unless settings say otherwise. -/
structure Finding where
  rule : String
  message : String
  file : String
  start : Int
  stop : Int
  severity : Value
  fix : Option (List Edit)
  extra : Value
  line : Option Int
  column : Option Int

inductive Location where
  | token (t : Token)
  | place (line column : Int)
  | offset (byte : Int)

structure Report where
  location : Location
  message : String
  fix : List Edit := []
  span : Option (Int × Int) := none
  extra : Value := .null

namespace Location

def lineColumn (b : Buffer) : Location → Int × Int
  | .token t => (t.startPos.line, t.startPos.column)
  | .place line column => (line, column)
  | .offset byte => ((b.position byte).line, (b.position byte).column)

/-- The byte range of a location: a token's own, and an empty one otherwise. -/
def range (b : Buffer) : Location → Int × Int
  | .token t => (t.start, t.stop)
  | .place line column => (b.offset line column, b.offset line column)
  | .offset byte => (byte, byte)

end Location

/-- The finding of a rule in a file that a report describes. -/
def Report.finding (r : Report) (rule file : String) (severity : Value) (b : Buffer) : Finding :=
  let (line, column) := r.location.lineColumn b
  let (start, stop) := r.span.getD (r.location.range b)
  { rule, message := r.message, file, start, stop, severity
    fix := if r.fix.isEmpty then none else some r.fix
    extra := r.extra, line := some line, column := some column }

def Finding.edits (findings : List Finding) : List Edit := findings.flatMap (·.fix.getD [])

end TidySpace
