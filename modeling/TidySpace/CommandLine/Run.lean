import TidySpace.CommandLine.Arguments
import TidySpace.Diff.Unified
import TidySpace.Analysis
import TidySpace.Project
import TidySpace.Logged

/-! # Running a command

A command looks for settings, chooses rules and lists files. Then it analyses the files, or fixes
them: fixed texts are written back, or shown as differences. What is left is told in the format
asked for. The exit code is one if there are findings or no files, and two if the command or the
settings are at fault.
-/

namespace TidySpace.CommandLine

/-- What a finished command has printed, and its exit code. -/
structure Printed where
  code : Nat
  stdout : String := ""
  stderr : String := ""
  deriving DecidableEq, Repr

/-! ### Fixing files -/

def deliver (showOnly : Bool) (path : String) (text fixed : List Char) : Work String :=
  if fixed = text then .done ""
  else if showOnly then .done (Diff.unified text fixed path)
  else do
    Work.overwrite path (Utf8.encode fixed)
    return ""

/-- Fixes the texts of files one after the other. Gives the differences to show, and the findings
that are left. -/
def fixAll (fix : String → List Char → Logged (List Char × List Finding)) (showOnly : Bool) :
    Texts → Work (String × List Finding)
  | [] => .done ("", [])
  | (path, text) :: rest => do
    let (fixed, left) ← Work.lift (fix path text)
    let shown ← deliver showOnly path text fixed
    let (later, more) ← fixAll fix showOnly rest
    return (shown ++ later, left ++ more)

def readTexts (t : FileTree) (paths : List String) : Logged Texts :=
  Logged.gather
    (fun path => do
      match ← Batch.readText t path with
      | some text => return [(path, text)]
      | none => return [])
    paths

/-! ### Running -/

namespace Command

/-- The settings for a command. Without a settings file there have to be paths, from the first of
which one is looked for. -/
def loadSettings (c : Command) (reader : DocumentReader) (t : FileTree) : Logged Settings :=
  if c.paths.isEmpty && c.settings.all String.isEmpty then .failed .noPaths
  else Project.settings reader t c.paths c.settings

def patterns (c : Command) : Value :=
  match c.rules with
  | none => .null
  | some rules =>
    .list ((((Text.splitString ',' rules).map Text.trimString).filter (!·.isEmpty)).map .text)

/-- The line about settings at fault. Where a rule's options are at fault, the line is left open for
the list of their faults. -/
def faultLine (e : Failure) : String :=
  match e with
  | .badRuleOptions .. => "Error: " ++ e.message
  | _ => "Error: " ++ e.message ++ "\n"

def workers (c : Command) : Except Failure Int :=
  match c.jobs with
  | some jobs => .ok (max 1 jobs)
  | none => .error (.mismatch .wrongKind)

/-- The findings in files, with the differences to show before them. -/
def find (c : Command) (grammar : Grammar) (s : Settings) (rules : List Rule)
    (files : List String) : Work (String × List Finding) :=
  if c.fix then do
    let texts ← Work.look (readTexts · files)
    fixAll (Fixing.run grammar s rules) c.diff texts
  else do
    let workers ← Work.lift (Logged.lift c.workers)
    let findings ← Work.look (Batch.run grammar · s rules files workers)
    return ("", findings)

def render (c : Command) (run : Run) (texts : Texts) : Except Failure String :=
  match c.format with
  | some format => format.render run texts
  | none => .error (.unknownFormat (Value.list []).quote)

/-- What is printed about a run, after the differences. The document shows where findings end in the
files as they are now. -/
def tell (c : Command) (differences : String) (run : Run) : Work Printed := do
  let paths := if c.format = some .json then Text.ascending (run.findings.map Finding.file) else []
  let texts ← Work.look (readTexts · paths)
  let report ← Work.lift (Logged.lift (c.render run texts))
  return { code := if run.findings.isEmpty then 0 else 1, stdout := differences ++ report ++ "\n" }

def runRules (c : Command) (grammar : Grammar) (s : Settings) (rules : List Rule) :
    Work Printed := do
  let files ← Work.look (Project.files · c.paths)
  if files.isEmpty then return { code := 1, stderr := "No files found to analyze\n" }
  let (differences, findings) ← c.find grammar s rules files
  c.tell differences ⟨findings, files.length, rules.length, Project.noTimes⟩

def run (c : Command) (reader : DocumentReader) (grammar : Grammar) : Work Printed := do
  let s ← Work.look (c.loadSettings reader)
  match s.chooseRules Language.javascript.name c.patterns with
  | .ok rules => c.runRules grammar s rules
  | .error e =>
    if e.isSettingsFault then return { code := 2, stderr := faultLine e }
    else Work.lift (.failed e)

end Command

def Stop.code : Stop → Nat
  | .help => 0
  | .usage => 2

/-- How a call of the program ends: without a command, or with the run of one and the files that it
leaves. -/
inductive Ending where
  | stopped (stop : Stop)
  | ran (printed : Logged Printed) (files : FileTree)

def call (args : List String) (reader : DocumentReader) (grammar : Grammar) (t : FileTree) : Ending :=
  match Command.ofArguments args with
  | .error stop => .stopped stop
  | .ok c =>
    let (printed, files) := c.run reader grammar t
    .ran printed files

end TidySpace.CommandLine
