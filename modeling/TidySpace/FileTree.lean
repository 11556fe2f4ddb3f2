import TidySpace.Text.Blank
import TidySpace.Text.Utf8
import TidySpace.Value

/-! # File trees

What is known of the files: entries by path, and the working folder. A path is the list of the names on
the way from the root. Folders on the way to an entry are there without an entry of their own, and so are
the working folder and those above it.

A path text starts at the root or at the working folder. `locate?` follows it step by step, as opening a
file does: every step but the last has to arrive at a folder. `absolute` only counts the steps and never
looks at the tree.
-/

namespace TidySpace

/-- The names on the way from the root of all files. -/
abbrev Path := List String

inductive Entry where
  | folder
  | file (data : List UInt8)

def Entry.isFile : Entry → Bool
  | .folder => false
  | .file _ => true

structure FileTree where
  /-- The working folder. -/
  home : Path
  entries : List (Path × Entry)

/-- Why a path leads nowhere, or nothing can be made or written there. -/
inductive PathFault where
  | missing
  /-- The path goes on below a file. -/
  | belowFile
  /-- Something is there already. -/
  | taken
  /-- There is a folder where a file should be. -/
  | folderThere
  | tooLong
  /-- The path holds the character U+0000. -/
  | holdsNul
  deriving DecidableEq, Repr

namespace Path

/-! ### Path texts -/

def steps (text : String) : List String := Text.splitString '/' text

def render (steps : List String) : String := "/".intercalate steps

def join (folder name : String) : String :=
  if folder.toList.getLast? = some '/' then folder ++ name else folder ++ "/" ++ name

def isRooted (text : String) : Bool := text.toList.head? == some '/'

/-- How the root is written in a path text made absolute. Two slashes at the start stay two; any other
number of them becomes one. -/
def rootText (text : String) : String :=
  if ['/', '/'].isPrefixOf text.toList && !(['/', '/', '/'].isPrefixOf text.toList) then "//" else "/"

def maxName : Nat := 255

def maxText : Nat := 4095

/-! ### Steps -/

def isStay (step : String) : Bool := step == "" || step == "."

/-- The path after a step. The root is above itself. -/
def next (here : Path) (step : String) : Path :=
  if isStay step then here else if step = ".." then here.dropLast else here ++ [step]

/-- A path and those of the folders above it, from the inside out. -/
def upward (p : Path) : List Path := (List.range (p.length + 1)).map fun n => p.take (p.length - n)

end Path

namespace FileTree

def places (t : FileTree) : List Path := t.home :: t.entries.map Prod.fst

/-- What is at a path. The working folder and those above it are folders, and so is what has entries
below it. -/
def get? (t : FileTree) (p : Path) : Option Entry :=
  if p.isPrefixOf t.home then some .folder
  else
    match t.entries.lookup p with
    | some e => some e
    | none => if t.entries.any fun e => p.isPrefixOf e.1 then some .folder else none

def put (t : FileTree) (p : Path) (e : Entry) : FileTree :=
  if t.entries.any (·.1 == p) then
    { t with entries := t.entries.map fun old => if old.1 == p then (p, e) else old }
  else { t with entries := t.entries ++ [(p, e)] }

/-! ### Where path texts lead -/

/-- Where the steps of a path text start. -/
def start (t : FileTree) (text : String) : Path := if Path.isRooted text then [] else t.home

/-- The path that a text names, counted without a look at what is there. -/
def absolute (t : FileTree) (text : String) : Path :=
  (Path.steps text).foldl Path.next (t.start text)

def enter (t : FileTree) (p : Path) : Except PathFault Unit :=
  match t.get? p with
  | some .folder => .ok ()
  | some (.file _) => .error .belowFile
  | none => .error .missing

/-- Follows steps from `here`, every one of which has to start at a folder. -/
def walk (t : FileTree) (here : Path) : List String → Except PathFault Path
  | [] => .ok here
  | step :: rest => do
    t.enter here
    if Path.maxName < step.utf8ByteSize then throw .tooLong
    walk t (here.next step) rest

/-- What a path text leads to, and where that is. -/
def locate? (t : FileTree) (text : String) : Option (Path × Entry) :=
  if text.isEmpty || Path.maxText < text.utf8ByteSize then none
  else
    match t.walk (t.start text) (Path.steps text) with
    | .ok p => (t.get? p).map fun e => (p, e)
    | .error _ => none

def read? (t : FileTree) (text : String) : Option (List UInt8) :=
  match t.locate? text with
  | some (_, .file data) => some data
  | _ => none

def readText? (t : FileTree) (text : String) : Option (List Char) :=
  (t.read? text).bind Utf8.decode?

/-- The part of `q` after `p`, if `q` begins with `p`. -/
def below? : Path → Path → Option Path
  | [], q => some q
  | _ :: _, [] => none
  | a :: p, b :: q => if a = b then below? p q else none

/-! ### Changing files -/

/-- Writes the bytes of a file that a path text leads to; other texts change nothing. -/
def overwrite (t : FileTree) (text : String) (data : List UInt8) : FileTree :=
  match t.locate? text with
  | some (p, .file _) => t.put p (.file data)
  | _ => t

end FileTree

end TidySpace
