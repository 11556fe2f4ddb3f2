import TidySpace.Output
import TidySpace.Text.Digit

/-! # Arguments of the command line

Arguments are first sorted into words and options, all of them, and then taken in order. A long
option may be shortened as long as it stays clear which one is meant, and may have its value after
an equals sign, where two hyphens are no value; the two options of one letter can stand together,
also behind an equals sign. After two hyphens everything is a word.

Reading ends at the first thing that decides: a request for help, or a usage error. An argument
that no option takes is an error too, but only once all have been read.
-/

namespace TidySpace.CommandLine

/-- What is asked of the program. The format and the number of jobs are missing where their option
was given without a value. -/
structure Command where
  paths : List String
  rules : Option String := none
  settings : Option String := none
  format : Option Format := some .pretty
  fix : Bool := false
  diff : Bool := false
  jobs : Option Int := some 1
  verbose : Bool := false

inductive OptionKind where
  | help
  | paths
  | rules
  | settings
  | format
  | fix
  | diff
  | jobs
  | verbose
  deriving DecidableEq, Repr

def optionNames : List (String × OptionKind) :=
  [("-h", .help), ("--help", .help), ("--paths", .paths), ("--rules", .rules),
    ("--config", .settings), ("--format", .format), ("--fix", .fix), ("--diff", .diff),
    ("--jobs", .jobs), ("--verbose", .verbose), ("-v", .verbose)]

inductive Arity where
  | flag
  | single
  | several
  deriving DecidableEq, Repr

def OptionKind.arity : OptionKind → Arity
  | .paths => .several
  | .rules | .settings | .format | .jobs => .single
  | .help | .fix | .diff | .verbose => .flag

/-! ### Sorting arguments -/

inductive Argument where
  /-- A word that an option can take. -/
  | word (text : String)
  /-- Two hyphens. -/
  | separator
  /-- An option, perhaps with a value after an equals sign. -/
  | option (kind : OptionKind) (value : Option String)
  /-- An option of one letter, with the letters behind it. -/
  | cluster (kind : OptionKind) (letters : List Char)
  /-- An option that does not exist. -/
  | unknown
  /-- An option that could be several. -/
  | ambiguous
  deriving DecidableEq, Repr

def splitValue (cs : List Char) : String × Option String :=
  match cs.dropWhile (· != '=') with
  | [] => (String.ofList cs, none)
  | _ :: value => (String.ofList (cs.takeWhile (· != '=')), some (String.ofList value))

/-- What an argument is that is not the full name of an option: a short form, or a word that only
looks like an option. -/
def sortOther (arg : String) (found : List Argument) : Argument :=
  match found with
  | [a] => a
  | _ :: _ => .ambiguous
  | [] =>
    if Text.isNegativeNumber arg.toList || arg.toList.contains ' ' then .word arg else .unknown

def startingWith (short : String) : List (String × OptionKind) :=
  optionNames.filter fun o => short.toList.isPrefixOf o.1.toList

/-- The options that an argument with two hyphens can mean. -/
def longMeanings (arg : String) : List Argument :=
  let (name, value) := splitValue arg.toList
  (startingWith name).map fun o => .option o.2 value

/-- The options that an argument with one hyphen can mean: the option of its first letter. -/
def shortMeanings (arg : String) : List Argument :=
  match optionNames.lookup (String.ofList (arg.toList.take 2)) with
  | some kind => [.cluster kind (arg.toList.drop 2)]
  | none => []

/-- What an argument is. Behind an option of one letter and an equals sign there are more letters. -/
def sort (arg : String) : Argument :=
  match arg.toList with
  | '-' :: second :: _ =>
    let (name, value) := splitValue arg.toList
    match optionNames.lookup arg, optionNames.lookup name, value with
    | some kind, _, _ => .option kind none
    | none, some kind, some value =>
      if second = '-' then .option kind (some value) else .cluster kind value.toList
    | none, _, _ => sortOther arg (if second = '-' then longMeanings arg else shortMeanings arg)
  | _ => .word arg

def sortAll : List String → List Argument
  | [] => []
  | arg :: rest =>
    if arg = "--" then .separator :: rest.map .word else sort arg :: sortAll rest

/-! ### Taking arguments -/

inductive Stop where
  | help
  | usage
  deriving DecidableEq, Repr

/-- What has been read so far: the command, whether paths were given, and whether an argument was
left over. -/
structure Reading where
  command : Command := { paths := [] }
  pathsGiven : Bool := false
  leftOver : Bool := false

/-- What a word stands for; without a word there is nothing to read, and a word that cannot be read
is an error. -/
def readWord {α : Type} (read? : String → Option α) : Option String → Except Stop (Option α)
  | none => .ok none
  | some word =>
    match read? word with
    | some a => .ok (some a)
    | none => .error .usage

def Reading.take (r : Reading) (kind : OptionKind) (words : List String) : Except Stop Reading := do
  let c := r.command
  match kind with
  | .help => throw .help
  | .paths => return { r with command := { c with paths := words }, pathsGiven := true }
  | .rules => return { r with command := { c with rules := words.head? } }
  | .settings => return { r with command := { c with settings := words.head? } }
  | .format =>
    let format ← readWord Format.ofName? words.head?
    return { r with command := { c with format } }
  | .fix => return { r with command := { c with fix := true } }
  | .diff => return { r with command := { c with diff := true } }
  | .jobs =>
    let jobs ← readWord (fun word => Text.readInteger? word.toList) words.head?
    return { r with command := { c with jobs } }
  | .verbose => return { r with command := { c with verbose := true } }

/-- The options that letters stand for. There has to be a letter, and every one has to be an
option. -/
def letterKinds (letters : List Char) : Except Stop (List OptionKind) :=
  match letters.mapM fun c => optionNames.lookup (String.ofList ['-', c]) with
  | some (kind :: kinds) => .ok (kind :: kinds)
  | _ => .error .usage

/-- Takes options of one letter that stand together, once all of them are known. -/
def Reading.takeCluster (r : Reading) (kind : OptionKind) (letters : List Char) :
    Except Stop Reading := do
  let kinds ← letterKinds letters
  (kind :: kinds).foldlM (fun r kind => r.take kind []) r

/-- The words of a value after an equals sign: two hyphens are none. -/
def valueWords (value : String) : List String := if value = "--" then [] else [value]

def spanWords : List Argument → List String × List Argument
  | .word text :: rest =>
    let (words, after) := spanWords rest
    (text :: words, after)
  | args => ([], args)

theorem length_spanWords_le (args : List Argument) : (spanWords args).2.length ≤ args.length := by
  fun_induction spanWords args with
  | case1 text rest words after hSpan ih =>
    rw [hSpan] at ih
    simp only [List.length_cons]
    exact Nat.le_succ_of_le ih
  | case2 => exact Nat.le_refl _

def Reading.takeAll (r : Reading) : List Argument → Except Stop Reading
  | [] => .ok r
  | .word _ :: rest => takeAll { r with leftOver := true } rest
  | .separator :: rest => takeAll { r with leftOver := true } rest
  | .unknown :: rest => takeAll { r with leftOver := true } rest
  | .ambiguous :: _ => .error .usage
  | .cluster kind letters :: rest => do
    let taken ← r.takeCluster kind letters
    takeAll taken rest
  | .option kind (some value) :: rest =>
    match kind.arity with
    | .flag => .error .usage
    | _ => do
      let taken ← r.take kind (valueWords value)
      takeAll taken rest
  | .option kind none :: rest =>
    match kind.arity, rest with
    | .flag, rest => do
      let taken ← r.take kind []
      takeAll taken rest
    | .single, .word text :: rest => do
      let taken ← r.take kind [text]
      takeAll taken rest
    | .several, .word text :: rest => do
      let taken ← r.take kind (text :: (spanWords rest).1)
      takeAll taken (spanWords rest).2
    | _, _ => .error .usage
termination_by args => args.length
decreasing_by
  all_goals simp only [List.length_cons]
  all_goals try omega
  have := length_spanWords_le ‹_›
  omega

def Command.ofArguments (args : List String) : Except Stop Command := do
  let sorted := sortAll args
  if sorted.contains .ambiguous then throw .usage
  let r ← Reading.takeAll {} sorted
  if r.leftOver || !r.pathsGiven then throw .usage
  return r.command

end TidySpace.CommandLine
