import TidySpace.Json.Reader
import TidySpace.Settings.File

/-! # A reader of settings documents

The reader that the program has of its own, where it is given no other: only JSON and plain texts. Blank
lines and comments at the start are passed over, and there is null if nothing follows. A plain text begins
with a letter and has none of the marks by which comments and members are known. Any other text is broken
and has no value.
-/

namespace TidySpace.Settings

namespace Document

def isAllowed (c : Char) : Bool :=
  let n := c.toNat
  n == 0x9 || n == 0xA || n == 0xD || (0x20 ≤ n && n ≤ 0x7E) || n == 0x85 ||
    (0xA0 ≤ n && n ≤ 0xFFFD) || 0x10000 ≤ n

def endsLine (c : Char) : Bool :=
  c == '\n' || c == '\r' || c.toNat == 0x85 || c.toNat == 0x2028 || c.toNat == 0x2029

/-- A text without the blank lines and comments at its start. -/
def skipIdle (inComment : Bool) : List Char → List Char
  | [] => []
  | c :: cs =>
    if inComment then skipIdle (!endsLine c) cs
    else if c == ' ' || endsLine c then skipIdle false cs
    else if c == '#' then skipIdle true cs
    else c :: cs

def isPlain (cs : List Char) : Bool :=
  cs.head?.any Char.isAlpha && cs.all fun c => c != ':' && c != '#' && c != '\t'

/-- The value of a plain text. Some words stand for null or for a truth value. -/
def plainValue (s : String) : Value :=
  if ["Null", "NULL"].contains s then .null
  else if ["True", "TRUE", "yes", "Yes", "YES", "on", "On", "ON"].contains s then .bool true
  else if ["False", "FALSE", "no", "No", "NO", "off", "Off", "OFF"].contains s then .bool false
  else .text s

def readContent? (cs : List Char) : Option Value :=
  match cs with
  | [] => some .null
  | '\t' :: _ => none
  | cs =>
    match Json.read? (String.ofList cs) with
    | some v => some v
    | none =>
      if isPlain cs then some (plainValue (Text.trimString (String.ofList cs))) else none

/-- The value in a text. A byte order mark at the start is no part of the document. -/
def read? (text : List Char) : Option Value :=
  let document := match text with
    | '\uFEFF' :: rest => rest
    | text => text
  if document.all isAllowed then readContent? (skipIdle false document) else none

end Document

def readDocument : DocumentReader := textReader Document.read?

end TidySpace.Settings
