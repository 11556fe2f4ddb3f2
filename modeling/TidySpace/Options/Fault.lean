import TidySpace.Value

/-! # Faults of options

What can be wrong with the options of a rule. A model of options is an object with known keys; all
faults of one model are found together and listed by key.
-/

namespace TidySpace

inductive FieldFault where
  | unknownKey
  | notABoolean
  | notAPolicy
  deriving DecidableEq, Repr

/-- The faults of a model whose members are simple: the value is no object, or members are wrong. -/
inductive ModelFault where
  | notAnObject
  | fields (faults : List (String × FieldFault))
  deriving DecidableEq, Repr

/-- What is wrong with the list of positional options. -/
inductive ListFault where
  | notAList
  | tooLong
  /-- The first option is no policy. -/
  | badPolicy (got : Value)
  /-- The second option has faults of its own. -/
  | badExceptions (fault : ModelFault)

/-- The faults of a rule's options: the value is no object, or members are wrong, among them perhaps
the list of positional options. -/
inductive OptionsFault where
  | notAnObject
  | fields (faults : List (String × FieldFault)) (options : Option ListFault)

/-- One fault, and the key at which it is; a value that is no object has a fault at no key. -/
inductive FaultEntry where
  | notAnObject
  | field (key : String) (fault : FieldFault)
  | options (fault : ListFault)

namespace FaultEntry

def key? : FaultEntry → Option String
  | .notAnObject => none
  | .field key _ => some key
  | .options _ => some "options"

/-- The order of faults: by key, and a fault at no key first. -/
def before (a b : FaultEntry) : Bool :=
  match a.key?, b.key? with
  | none, _ => true
  | some _, none => false
  | some k, some l => k ≤ l

end FaultEntry

def ModelFault.entries : ModelFault → List FaultEntry
  | .notAnObject => [.notAnObject]
  | .fields faults => (faults.map fun f => FaultEntry.field f.1 f.2).mergeSort FaultEntry.before

def OptionsFault.entries : OptionsFault → List FaultEntry
  | .notAnObject => [.notAnObject]
  | .fields faults options =>
    let entries := faults.map fun f => FaultEntry.field f.1 f.2
    (entries ++ (options.map FaultEntry.options).toList).mergeSort FaultEntry.before

def ListFault.policyMessage (got : Value) : String :=
  "first option must be 'always' or 'never', got " ++ got.quote

end TidySpace
