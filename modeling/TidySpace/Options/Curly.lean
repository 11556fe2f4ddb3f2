import TidySpace.Construct
import TidySpace.Options.Fault

/-! # Options of the curly spacing rule

The options are a list of at most two: a policy, and exceptions from it. `CurlyConfig.read` checks
them, and `CurlyOptions.resolve` turns them into what the rule asks: whether each kind of
construct is spaced, and which of the two exceptions for nested brackets are in force.
-/

namespace TidySpace

/-- Whether the inner sides of braces must be spaced. -/
inductive Policy where
  | always
  | never
  deriving DecidableEq, Repr

namespace Policy

def name : Policy → String
  | .always => "always"
  | .never => "never"

def spaced : Policy → Bool
  | .always => true
  | .never => false

def ofValue? : Value → Option Policy
  | .text "always" => some .always
  | .text "never" => some .never
  | _ => none

end Policy

/-- The exceptions of the second option; those not given are `none`. -/
structure CurlyExceptions where
  arraysInObjects : Option Bool := none
  objectsInObjects : Option Bool := none
  objectPattern : Option Policy := none
  objectExpression : Option Policy := none
  importDeclaration : Option Policy := none
  exportDeclaration : Option Policy := none
  deriving DecidableEq, Repr

/-! ### Reading members -/

def readFlag : Value → Except FieldFault (Option Bool)
  | .null => .ok none
  | .bool b => .ok (some b)
  | _ => .error .notABoolean

def readPolicy (v : Value) : Except FieldFault (Option Policy) :=
  match v, Policy.ofValue? v with
  | .null, _ => .ok none
  | _, some p => .ok (some p)
  | _, none => .error .notAPolicy

/-- Looks a member up under its key, and under its other name if the key is missing. Gives the key
under which it was found. -/
def findMember? (ms : Members) (key other : String) : Option (String × Value) :=
  match ms.get? key with
  | some v => some (key, v)
  | none => (ms.get? other).map fun v => (other, v)

/-- Reads an optional member of a model; a fault comes with the key that was given. -/
def readMember {α : Type} (ms : Members) (read : Value → Except FieldFault (Option α))
    (key other : String) : Except (String × FieldFault) (Option α) :=
  match findMember? ms key other with
  | none => .ok none
  | some (given, v) =>
    match read v with
    | .ok x => .ok x
    | .error fault => .error (given, fault)

/-- Whether a key of an object takes part in reading a model with the given keys and other names: a
key always does, another name where its key is missing. -/
def isKnownKey (ms : Members) (known : List (String × String)) (key : String) : Bool :=
  known.any fun k => key == k.1 || (key == k.2 && (ms.get? k.1).isNone)

def faultOf {α : Type} : Except (String × FieldFault) α → List (String × FieldFault)
  | .ok _ => []
  | .error fault => [fault]

def valueOf {α : Type} (default : α) : Except (String × FieldFault) α → α
  | .ok x => x
  | .error _ => default

namespace CurlyExceptions

def keys : List (String × String) :=
  [("arraysInObjects", "arrays_in_objects"), ("objectsInObjects", "objects_in_objects"),
    ("ObjectPattern", "object_pattern"), ("ObjectExpression", "object_expression"),
    ("ImportDeclaration", "import_declaration"),
    ("ExportNamedDeclaration", "export_named_declaration")]

def read (v : Value) : Except ModelFault CurlyExceptions :=
  match v with
  | .object ms =>
    let arrays := readMember ms readFlag "arraysInObjects" "arrays_in_objects"
    let objects := readMember ms readFlag "objectsInObjects" "objects_in_objects"
    let pattern := readMember ms readPolicy "ObjectPattern" "object_pattern"
    let expression := readMember ms readPolicy "ObjectExpression" "object_expression"
    let imports := readMember ms readPolicy "ImportDeclaration" "import_declaration"
    let exports := readMember ms readPolicy "ExportNamedDeclaration" "export_named_declaration"
    let unknown := ((Members.keys ms).filter fun key => !isKnownKey ms keys key).map
      fun key => (key, FieldFault.unknownKey)
    let faults := faultOf arrays ++ faultOf objects ++ faultOf pattern ++ faultOf expression ++
      faultOf imports ++ faultOf exports ++ unknown
    if faults.isEmpty then
      .ok ⟨valueOf none arrays, valueOf none objects, valueOf none pattern,
        valueOf none expression, valueOf none imports, valueOf none exports⟩
    else .error (.fields faults)
  | _ => .error .notAnObject

end CurlyExceptions

/-- The positional options of the curly spacing rule, checked. -/
structure CurlyConfig where
  policy : Option Policy
  exceptions : CurlyExceptions
  deriving DecidableEq, Repr

namespace CurlyConfig

/-- Checks the exceptions that follow a policy. -/
def readRest (policy : Option Policy) : List Value → Except ListFault CurlyConfig
  | [] => .ok ⟨policy, {}⟩
  | v :: _ =>
    match CurlyExceptions.read v with
    | .ok exceptions => .ok ⟨policy, exceptions⟩
    | .error fault => .error (.badExceptions fault)

def readItems : List Value → Except ListFault CurlyConfig
  | [] => .ok ⟨none, {}⟩
  | first :: rest =>
    if 1 < rest.length then .error .tooLong
    else
      match Policy.ofValue? first with
      | some p => readRest (some p) rest
      | none => .error (.badPolicy first)

def readList : Value → Except ListFault CurlyConfig
  | .list items => readItems items
  | _ => .error .notAList

def read (v : Value) : Except OptionsFault CurlyConfig :=
  match v with
  | .object ms =>
    let list := match Members.get? ms "options" with
      | some options => readList options
      | none => .ok ⟨none, {}⟩
    let unknown := (Members.keys ms).filter (· != "options")
    match list, unknown with
    | .ok config, [] => .ok config
    | .ok _, _ => .error (.fields (unknown.map (·, .unknownKey)) none)
    | .error fault, _ => .error (.fields (unknown.map (·, .unknownKey)) (some fault))
  | _ => .error .notAnObject

end CurlyConfig

structure CurlyOptions where
  spaced : Bool
  /-- Before a closing bracket of an array the requirement is the opposite one. -/
  arraysException : Bool
  /-- Before a closing brace the requirement is the opposite one. -/
  objectsException : Bool
  objectPattern : Bool
  objectExpression : Bool
  importDeclaration : Bool
  exportDeclaration : Bool
  deriving DecidableEq, Repr

namespace CurlyOptions

def forKind (o : CurlyOptions) : ConstructKind → Bool
  | .objectPattern => o.objectPattern
  | .objectExpression => o.objectExpression
  | .importDeclaration => o.importDeclaration
  | .exportDeclaration => o.exportDeclaration

/-- The options of checked settings. A flag is in force only where it opposes the policy, and a kind
without a policy of its own has the main one. -/
def ofConfig (config : CurlyConfig) : CurlyOptions :=
  let spaced := config.policy.elim false Policy.spaced
  let e := config.exceptions
  let forKind (p : Option Policy) : Bool := p.elim spaced Policy.spaced
  ⟨spaced, e.arraysInObjects == some (!spaced), e.objectsInObjects == some (!spaced),
    forKind e.objectPattern, forKind e.objectExpression, forKind e.importDeclaration,
    forKind e.exportDeclaration⟩

end CurlyOptions

end TidySpace
