import TidySpace.Logged
import TidySpace.Pattern
import TidySpace.Text.Blank
import TidySpace.Text.Lowercase

/-! # Registries

A registry lists rules and language handlers, and has an index of the rules by their ids. Both are
only ever added, until all are cleared at once; what has an id or a language that is taken is passed
over, so the first one under a name stays. Rules are chosen by language and by patterns on their ids,
in the order in which they were added.

The handler for a file is chosen by the extension of its path. That is what the last name of the path
holds from the last dot on, in lower case; dots at the start of the name do not count.
-/

namespace TidySpace

/-! ### Extensions -/

def lastName (path : List Char) : List Char := (Text.splitOn '/' path).getLast?.getD []

/-- The characters from the last dot on; there are none without a dot. -/
def fromLastDot (name : List Char) : List Char :=
  if name.contains '.' then '.' :: (name.reverse.takeWhile (· != '.')).reverse else []

def extensionOf (path : String) : String :=
  String.ofList (Text.lower (fromLastDot ((lastName path.toList).dropWhile (· == '.'))))

/-! ### Rules and handlers -/

structure Listed (ρ : Type) where
  id : String
  languages : List String
  item : ρ

structure Handler (α : Type) where
  language : String
  extensions : List String
  item : α

/-- A package in which rules are looked for: its own rules, and its modules in the order in which they
are found, each with its rules; a module that cannot be imported has none. -/
structure Package (ρ : Type) where
  rules : List (Listed ρ) := []
  modules : List (String × Option (List (Listed ρ))) := []

/-- Rules and language handlers in the order in which they were added, and the rules by their ids. -/
structure Registry (ρ α : Type) where
  rules : List (Listed ρ) := []
  index : List (String × Listed ρ) := []
  handlers : List (Handler α) := []

namespace Registry

variable {ρ α : Type}

/-! ### Adding -/

def add (r : Registry ρ α) (rule : Listed ρ) : Registry ρ α :=
  if (r.index.lookup rule.id).isSome then r
  else { r with rules := r.rules ++ [rule], index := r.index ++ [(rule.id, rule)] }

def addAll (r : Registry ρ α) (rules : List (Listed ρ)) : Registry ρ α := rules.foldl add r

def addHandler (r : Registry ρ α) (handler : Handler α) : Registry ρ α :=
  if r.handlers.any (·.language == handler.language) then r
  else { r with handlers := r.handlers ++ [handler] }

def clear (_ : Registry ρ α) : Registry ρ α := {}

/-! ### Looking for rules in packages -/

/-- The package under a name, if there is one. The name has to be given, and given in full: one that
starts with a point is none. -/
def package? (packages : List (String × Package ρ)) (name : String) :
    Except Failure (Option (Package ρ)) :=
  if name.isEmpty then .error .emptyName
  else if name.toList.head? == some '.' then .error (.mismatch .wrongKind)
  else .ok (packages.lookup name)

/-- Adds the rules of modules; one that cannot be imported is remarked on. -/
def addModules : List (String × Option (List (Listed ρ))) → Registry ρ α →
    Logged Unit × Registry ρ α
  | [], r => (.done (), r)
  | (_, some rules) :: rest, r => addModules rest (r.addAll rules)
  | (name, none) :: rest, r =>
    let (later, grown) := addModules rest r
    ((Logged.warn (.brokenModule name)).andThen fun _ => later, grown)

/-- Adds the rules of packages and of their modules, each package found by its name; a name without a
package is remarked on. What was added before a name that is none stays. -/
def addPackages (packages : List (String × Package ρ)) :
    List String → Registry ρ α → Logged Unit × Registry ρ α
  | [], r => (.done (), r)
  | name :: names, r =>
    match package? packages name with
    | .error e => (.failed e, r)
    | .ok (some package) =>
      let (here, grown) := addModules package.modules (r.addAll package.rules)
      let (later, grown) := addPackages packages names grown
      (here.andThen fun _ => later, grown)
    | .ok none =>
      let (later, grown) := addPackages packages names r
      ((Logged.warn (.missingPackage name)).andThen fun _ => later, grown)

/-- Adds the rules of packages, and counts those that were added. -/
def discover (packages : List (String × Package ρ)) (names : List String) (r : Registry ρ α) :
    Logged Nat × Registry ρ α :=
  let (found, grown) := addPackages packages names r
  (found.andThen fun _ => .done (grown.rules.length - r.rules.length), grown)

/-! ### Looking up -/

def rule? (r : Registry ρ α) (id : String) : Option (Listed ρ) := r.index.lookup id

def ruleIds (r : Registry ρ α) : List String := r.index.map Prod.fst

def handler? (r : Registry ρ α) (language : String) : Option (Handler α) :=
  r.handlers.find? (·.language == language)

/-- The first handler of files with the extension of a path. -/
def handlerFor? (r : Registry ρ α) (path : String) : Option (Handler α) :=
  r.handlers.find? (·.extensions.contains (extensionOf path))

def languages (r : Registry ρ α) : List String := r.handlers.map Handler.language

def rulesFor (r : Registry ρ α) (language : String) : List (Listed ρ) :=
  r.rules.filter (·.languages.contains language)

/-! ### Choosing by patterns -/

/-- Whether one of the patterns selects an id; those after the first that does are not looked at. -/
def anySelects (id : String) : List Value → Except Mismatch Bool
  | [] => .ok false
  | .text pattern :: rest => if Pattern.selects pattern id then .ok true else anySelects id rest
  | _ :: _ => .error .wrongKind

def selected (patterns : Value) : List (Listed ρ) → Except Mismatch (List (Listed ρ))
  | [] => .ok []
  | rule :: rest => do
    let items ← patterns.items?
    let chosen ← anySelects rule.id items
    let others ← selected patterns rest
    return if chosen then rule :: others else others

/-- The rules for a language that the patterns select; no patterns select none. -/
def enabled (r : Registry ρ α) (patterns : Value) (language : String) :
    Except Mismatch (List (Listed ρ)) :=
  if !patterns.isGiven then .ok []
  else if patterns.same (.list [.text "*"]) then .ok (r.rulesFor language)
  else selected patterns (r.rulesFor language)

end Registry

end TidySpace
