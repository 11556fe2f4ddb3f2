import TidySpace.Analysis
import TidySpace.FileTree.Listing
import TidySpace.Output
import TidySpace.Settings.File

/-! # Projects

The findings of several files in order, up to a limit. One at a time, files are analysed until the
limit is reached; at once, all of them are, and the findings are cut then. A file that is not
UTF-8 is remarked on and has no findings.

A project is what the entry points of the program share: settings for paths, the rules, and the files;
and the analysis of paths as a whole.
-/

namespace TidySpace

/-! ### Batches of files -/

namespace Batch

/-- The text of a listed file; what cannot be read is remarked on. -/
def readText (t : FileTree) (path : String) : Logged (Option (List Char)) :=
  match t.readText? path with
  | some text => .done (some text)
  | none => do
    Logged.warn (.unreadableFile path)
    return none

def ofFile (grammar : Grammar) (t : FileTree) (s : Settings) (rules : List Rule) (path : String) :
    Logged (List Finding) := do
  match ← readText t path with
  | some text => Analysis.run grammar s rules path text
  | none => return []

def reaches (count : Nat) : Value → Except Mismatch Bool
  | .bool b => .ok (decide ((if b then 1 else 0) ≤ count))
  | .int n => .ok (decide (n ≤ count))
  | .real x => .ok (x.negative || decide (x.num ≤ count * x.den))
  | _ => .error .wrongKind

/-- Collects findings file by file, after those in `found`, until the limit is reached. -/
def oneByOne (analyze : String → Logged (List Finding)) (limit : Value) (found : List Finding) :
    List String → Logged (List Finding)
  | [] => .done found
  | path :: rest => do
    let here ← analyze path
    let enough ← Logged.lift ((reaches (found ++ here).length limit).mapError .mismatch)
    if enough then return found ++ here
    oneByOne analyze limit (found ++ here) rest

def run (grammar : Grammar) (t : FileTree) (s : Settings) (rules : List Rule) (paths : List String)
    (jobs : Int) : Logged (List Finding) := do
  let analyze := ofFile grammar t s rules
  let found ←
    if jobs ≤ 1 then oneByOne analyze s.maxTotal [] paths
    else Logged.gather analyze paths
  Logged.lift ((Settings.cut s.maxTotal found).mapError .mismatch)

end Batch

/-! ### Paths as a whole -/

namespace Project

def settings (reader : DocumentReader) (t : FileTree) (paths : List String) (given : Option String) :
    Logged Settings :=
  let path :=
    match given with
    | some path => if path.isEmpty then none else some path
    | none => none
  Settings.loadWith reader t (path.or (Settings.find? t (paths.headD ".")))

def files (t : FileTree) (paths : List String) : Logged (List String) :=
  t.list Language.javascript.extensions paths

def noTimes : Members :=
  let zero := Value.real (Decimal.Binary64.zero false)
  [("parse_ms", zero), ("total_ms", zero)]

/-- Analyses paths with the rules that patterns select. -/
def analyze (reader : DocumentReader) (grammar : Grammar) (t : FileTree) (paths : List String)
    (patterns : Value) (given : Option String) (jobs : Int) : Logged Run := do
  let s ← settings reader t paths given
  let rules ← Logged.lift (s.chooseRules Language.javascript.name patterns)
  let listed ← files t paths
  let findings ← Batch.run grammar t s rules listed jobs
  return ⟨findings, listed.length, rules.length, noTimes⟩

end Project

end TidySpace
