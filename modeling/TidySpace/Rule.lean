import TidySpace.Construct
import TidySpace.Finding
import TidySpace.Failure

/-! # Rules

A rule looks at one file and gives its findings, or fails. What it sees of the file is a `FileView`:
the text, the syntax tree if there is one, the source that both make, the language, and the options
that settings hold for the rule.
-/

namespace TidySpace

/-- A language: its name, the endings of its files, and how to find the brace constructs of a syntax
tree, where that is known. -/
structure Language where
  name : String
  extensions : List String := []
  constructs? : Option (Node → List BraceConstruct) := none

structure FileView where
  path : String
  text : List Char
  tree : Option Node
  source : Source
  language : Option Language
  options : Value

namespace FileView

def languageName? (view : FileView) : Option String := view.language.map Language.name

def withOptions (view : FileView) (options : Value) : FileView := { view with options }

def ofText (path : String) (text : List Char) (tree : Option Node) (language : Option Language)
    (options : Value) : FileView :=
  ⟨path, text, tree, Source.ofText text tree, language, options⟩

end FileView

/-- A rule. `check?` says what is wrong with options, before any file is looked at; a rule without
it takes any options. -/
structure Rule where
  id : String
  languages : List String
  defaultSeverity : String
  needsTree : Bool
  check? : Option (Value → Option OptionsFault)
  visit : FileView → Except Failure (List Finding)

namespace Rule

/-- The options as an object: what does not count as given is empty. -/
def givenOptions (v : Value) : Value := v.orElse (.object [])

/-- Checks options by reading them; what is wrong with them is told with the id of the rule. -/
def validate {α : Type} (read : Value → Except OptionsFault α) (rule : String) (given : Value) :
    Except Failure α := (read (givenOptions given)).mapError (.badRuleOptions rule)

/-- A rule that makes the same reports on every file, and then gives up if it has a reason to. It
has no options to check. -/
def scripted (id : String) (languages : List String) (defaultSeverity : String) (needsTree : Bool)
    (reportSeverity : String) (reports : Source → List Report) (reason : Option String) : Rule where
  id := id
  languages := languages
  defaultSeverity := defaultSeverity
  needsTree := needsTree
  check? := none
  visit := fun view =>
    match reason with
    | some why => .error (.ruleGaveUp why)
    | none =>
      .ok ((reports view.source).map fun r =>
        r.finding id view.path (.text reportSeverity) view.source.toBuffer)

end Rule

end TidySpace
