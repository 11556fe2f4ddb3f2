import TidySpace.FileTree
import TidySpace.Options.Fault

/-! # Failures and warnings

What stops an operation, and what it only remarks on. Both are kept as causes; `Failure.message` and
`Warning.template` hold the wording.
-/

namespace TidySpace

inductive Failure where
  /-- A text has no such line. -/
  | noSuchLine
  /-- Bytes that should be a text are not UTF-8. -/
  | notUtf8
  /-- A value is not of the kind that its use needs. -/
  | mismatch (m : Mismatch)
  /-- The options given to a rule have faults. -/
  | badOptions (fault : OptionsFault)
  /-- The options that settings hold for a rule have faults. -/
  | badRuleOptions (rule : String) (fault : OptionsFault)
  /-- Settings give a rule a severity that does not exist. -/
  | badSeverity (rule severity : Value)
  /-- Settings have a severity threshold that does not exist. -/
  | badThreshold (threshold : Value)
  /-- There is no such output format. -/
  | unknownFormat (name : String)
  /-- A name is empty. -/
  | emptyName
  /-- There are no paths from which settings could be looked for. -/
  | noPaths
  /-- The language has no brace constructs to go through. -/
  | noConstructs
  /-- A rule gave up. -/
  | ruleGaveUp (reason : String)
  /-- A whole number is too large to be written with decimal places. -/
  | numberTooLarge
  /-- A text stands where a number is written with decimal places. -/
  | textForNumber
  /-- A file cannot be written. -/
  | unwritable (fault : PathFault)

namespace Failure

def settingsMessage (rule : String) : String := "Invalid configuration for rule '" ++ rule ++ "'"

/-- The wording of a failure, where it has one. Faults of options are listed and have no wording. -/
def message : Failure → String
  | .badRuleOptions rule _ => settingsMessage rule
  | .badSeverity rule severity =>
    settingsMessage rule.plain ++ ": unknown severity " ++ severity.quote
  | .badThreshold threshold =>
    settingsMessage "*" ++ ": unknown severity threshold " ++ threshold.quote
  | .unknownFormat name => "Unknown format: " ++ name
  | .textForNumber => "Unknown format code 'f' for object of type 'str'"
  | .ruleGaveUp reason => reason
  | _ => ""

def isSettingsFault : Failure → Bool
  | .badRuleOptions .. => true
  | .badSeverity .. => true
  | .badThreshold .. => true
  | _ => false

end Failure

/-- A remark about something that does not stop an operation. What was wrong with a file, a document or a
module is not kept. -/
inductive Warning where
  | ruleFailed (rule path : String) (cause : Failure)
  | unreadableFile (path : String)
  | missingPath (path : String)
  | unreadableSettings (path : String)
  | unknownSetting (key path : String)
  | missingPackage (name : String)
  | brokenModule (name : String)

namespace Warning

/-- The wording of a warning, with a mark where each detail goes. -/
def template : Warning → String
  | .ruleFailed .. => "Rule '%s' failed on %s: %s"
  | .unreadableFile _ => "Failed to read %s: %s"
  | .missingPath _ => "Path '%s' does not exist"
  | .unreadableSettings _ => "Failed to load config from %s: %s; using default configuration"
  | .unknownSetting .. => "Ignoring unknown config key '%s' in %s"
  | .missingPackage _ => "Could not import package %s: %s"
  | .brokenModule _ => "Failed to import %s: %s"

/-- The details of a warning that are kept. The first is what it is about. -/
def details : Warning → List String
  | .ruleFailed rule path cause => [rule, path, cause.message]
  | .unreadableFile path => [path]
  | .missingPath path => [path]
  | .unreadableSettings path => [path]
  | .unknownSetting key path => [key, path]
  | .missingPackage name => [name]
  | .brokenModule name => [name]

end Warning

end TidySpace
