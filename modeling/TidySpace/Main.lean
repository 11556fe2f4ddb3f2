import TidySpace.CommandLine.Run
import TidySpace.Json.Reader
import TidySpace.Settings.Document

/-! # The program

Runs a command on the working folder: reads the folder, and the settings files in the folders above it,
calls the command line, writes back the files that have changed, and prints. The program has no grammar
of its own. It looks texts up in the file `syntax-trees.json`, a list of pairs of a text and the rows of
its tree; a text that is not there has no tree.
-/

namespace TidySpace

/-! ### Syntax trees -/

/-- The row written as its depth, kind, a number that tells whether it is named, start and stop. -/
def Row.ofValue? : Value → Option Row
  | .list [.int depth, .text kind, .int named, .int start, .int stop] =>
    some ⟨depth.toNat, kind, named ≠ 0, start.toNat, stop.toNat⟩
  | _ => none

def Grammar.pairOfValue? : Value → Option (List Char × Node)
  | .list [.text text, .list rows] => do
    let tree ← Node.ofRows? (← rows.mapM Row.ofValue?)
    return (text.toList, tree)
  | _ => none

/-- The grammar that looks texts up in a list of pairs. -/
def Grammar.ofValue : Value → Grammar
  | .list pairs => fun text => (pairs.filterMap Grammar.pairOfValue?).lookup text
  | _ => fun _ => none

def Grammar.ofFiles (t : FileTree) : Grammar :=
  match (t.readText? "syntax-trees.json").bind fun text => Json.read? (String.ofList text) with
  | some v => Grammar.ofValue v
  | none => fun _ => none

/-! ### Files -/

namespace FileTree

partial def readEntry (above : Path) (e : IO.FS.DirEntry) : IO (List (Path × Entry)) := do
  let here := above ++ [e.fileName]
  if ← e.path.isDir then
    let below ← (← e.path.readDir).toList.mapM (readEntry here)
    return (here, .folder) :: below.flatten
  else
    try
      let data ← IO.FS.readBinFile e.path
      return [(here, .file data.toList)]
    catch _ => return []

def textOf (p : Path) : String := "/" ++ Path.render p

/-- The settings files that can be read in a folder. -/
def readSettings (folder : Path) : IO (List (Path × Entry)) := do
  let files ← Settings.fileNames.mapM fun name => do
    try
      let data ← IO.FS.readBinFile (textOf (folder ++ [name]))
      return [(folder ++ [name], Entry.file data.toList)]
    catch _ => return []
  return files.flatten

def readFolder : IO FileTree := do
  let folder ← IO.currentDir
  let home : Path := (Path.steps folder.toString).filter (!·.isEmpty)
  let below ← (← folder.readDir).toList.mapM (readEntry home)
  let above ← (home.upward.drop 1).mapM readSettings
  return ⟨home, below.flatten ++ above.flatten⟩

/-- Writes the files that hold other bytes than before. -/
def writeChanges (before after : FileTree) : IO Unit := do
  for (path, entry) in after.entries do
    match entry, before.get? path with
    | .file data, some (.file old) =>
      if data ≠ old then IO.FS.writeBinFile (textOf path) ⟨data.toArray⟩
    | _, _ => pure ()

end FileTree

/-! ### Running -/

/-- A warning on a line, with dots for a detail that is not kept. -/
def Warning.line (w : Warning) : String :=
  let parts := w.template.splitOn "%s"
  let details := w.details ++ List.replicate (parts.length - 1 - w.details.length) "..."
  String.join ((List.zipWith (· ++ ·) parts details) ++ parts.drop details.length)

def usageLine : String :=
  "usage: tidyspace [-h] --paths PATHS [PATHS ...] [--rules RULES] [--config CONFIG] " ++
    "[--format FORMAT] [--fix] [--diff] [--jobs JOBS] [--verbose]"

/-- Prints how a call has ended, and gives its exit code. -/
def CommandLine.Ending.tell (before : FileTree) : Ending → IO UInt32
  | .stopped stop => do
    match stop with
    | .help => IO.println usageLine
    | .usage => IO.eprintln usageLine
    return stop.code.toUInt32
  | .ran printed after => do
    before.writeChanges after
    for w in printed.warnings do
      IO.eprintln w.line
    match printed.result with
    | .ok p =>
      IO.print p.stdout
      IO.eprint p.stderr
      return p.code.toUInt32
    | .error e =>
      IO.eprintln ("Error: " ++ e.message)
      return 1

end TidySpace

def main (args : List String) : IO UInt32 := do
  let files ← TidySpace.FileTree.readFolder
  let grammar := TidySpace.Grammar.ofFiles files
  (TidySpace.CommandLine.call args TidySpace.Settings.readDocument grammar files).tell files
