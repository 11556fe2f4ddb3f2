import TidySpace.Value

/-! # Writing JSON

Values as JSON in ASCII. `render` writes an indented document, two spaces a level, with empty
lists and objects on one line; `renderLine` writes everything on one line. Numbers keep their
kind: a whole number has no point and a binary number is written as its shortest decimal. A table
is written as an object; its keys become texts.
-/

namespace TidySpace.Json

open Text (hex)

def escapeUnit (n : Nat) : List Char := '\\' :: 'u' :: hex 4 n

/-- A character inside a JSON string. Everything outside printable ASCII is escaped, in two units
when its number does not fit one. -/
def escapeChar (c : Char) : List Char :=
  let n := c.toNat
  if c = '"' then ['\\', '"']
  else if c = '\\' then ['\\', '\\']
  else if c = '\n' then ['\\', 'n']
  else if c = '\r' then ['\\', 'r']
  else if c = '\t' then ['\\', 't']
  else if n = 0x8 then ['\\', 'b']
  else if n = 0xC then ['\\', 'f']
  else if 0x20 ≤ n ∧ n < 0x7F then [c]
  else if n < 0x10000 then escapeUnit n
  else escapeUnit (0xD800 + (n - 0x10000) / 0x400) ++ escapeUnit (0xDC00 + (n - 0x10000) % 0x400)

def quote (s : String) : String :=
  String.ofList ('"' :: s.toList.flatMap escapeChar ++ ['"'])

/-- How the parts of a document are set apart: what starts a line at a depth, and what follows
the colon of a member. -/
structure Layout where
  newline : Nat → String
  afterColon : String

def Layout.indented : Layout :=
  ⟨fun depth => String.ofList ('\n' :: List.replicate (2 * depth) ' '), " "⟩

def Layout.line : Layout := ⟨fun _ => "", ""⟩

def Layout.enclose (layout : Layout) (depth : Nat) (opening closing : String)
    (parts : List String) : String :=
  if parts.isEmpty then opening ++ closing
  else
    opening ++ layout.newline (depth + 1) ++
      ("," ++ layout.newline (depth + 1)).intercalate parts ++ layout.newline depth ++ closing

/-- A key of a mapping as a text: that of a text is itself, and that of another value is what would
be written for it. -/
def keyText : Value → String
  | .null => "null"
  | .bool true => "true"
  | .bool false => "false"
  | v => v.plain

mutual

def write (layout : Layout) (depth : Nat) : Value → String
  | .null => "null"
  | .bool true => "true"
  | .bool false => "false"
  | .int n => toString n
  | .real x => x.render
  | .text s => quote s
  | .list items => layout.enclose depth "[" "]" (writeItems layout (depth + 1) items)
  | .object members =>
    layout.enclose depth "\x7b" "\x7d" (writeMembers layout (depth + 1) members)
  | .table rows => layout.enclose depth "\x7b" "\x7d" (writeRows layout (depth + 1) rows)

def writeItems (layout : Layout) (depth : Nat) : List Value → List String
  | [] => []
  | v :: vs => write layout depth v :: writeItems layout depth vs

def writeMembers (layout : Layout) (depth : Nat) : List (String × Value) → List String
  | [] => []
  | (key, v) :: vs =>
    (quote key ++ ":" ++ layout.afterColon ++ write layout depth v) ::
      writeMembers layout depth vs

def writeRows (layout : Layout) (depth : Nat) : List (Value × Value) → List String
  | [] => []
  | (key, v) :: vs =>
    (quote (keyText key) ++ ":" ++ layout.afterColon ++ write layout depth v) ::
      writeRows layout depth vs

end

def render (v : Value) : String := write .indented 0 v

def renderLine (v : Value) : String := write .line 0 v

end TidySpace.Json
