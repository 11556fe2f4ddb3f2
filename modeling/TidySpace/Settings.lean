import TidySpace.Rule

/-! # Settings

What a user can set: which rules run, how many findings are kept, from which severity on, and the
severity and options of each rule. Settings come from outside, so every field holds any value; a
field is looked at when it is needed, and fails then if its value is of no use.
-/

namespace TidySpace

structure Settings where
  enabledRules : Value
  maxPerFile : Value
  maxTotal : Value
  threshold : Value
  severities : Value
  ruleOptions : Value

namespace Settings

/-! ### Making settings -/

def plain : Settings where
  enabledRules := .list [.text "*"]
  maxPerFile := .int 200
  maxTotal := .int 5000
  threshold := .text "info"
  severities := .object []
  ruleOptions := .object []

/-- The options of the standard rules where settings give none. -/
def standardOptions : Members :=
  [("style.object_curly_spacing", .object [("options", .list [.text "never"])]),
    ("style.no_trailing_spaces", .object [("skipBlankLines", .bool false)])]

def standard : Settings := { plain with ruleOptions := .object standardOptions }

def set? (s : Settings) (key : String) (v : Value) : Option Settings :=
  match key with
  | "enabled_rules" => some { s with enabledRules := v }
  | "max_findings_per_file" => some { s with maxPerFile := v }
  | "max_total_findings" => some { s with maxTotal := v }
  | "severity_threshold" => some { s with threshold := v }
  | "rule_severities" => some { s with severities := v }
  | "rule_configs" => some { s with ruleOptions := v }
  | _ => none

/-- Severities and options that are null are empty. -/
def fillNull (s : Settings) : Settings :=
  let fill : Value → Value
    | .null => .object []
    | v => v
  { s with severities := fill s.severities, ruleOptions := fill s.ruleOptions }

def setAll (s : Settings) : Members → Except Mismatch Settings
  | [] => .ok s
  | (key, v) :: rest =>
    match s.set? key v with
    | some t => setAll t rest
    | none => .error .wrongKind

def ofMembers (ms : Members) : Except Mismatch Settings := (plain.setAll ms).map fillNull

def toMembers (s : Settings) : Members :=
  [("enabled_rules", s.enabledRules), ("max_findings_per_file", s.maxPerFile),
    ("max_total_findings", s.maxTotal), ("severity_threshold", s.threshold),
    ("rule_severities", s.severities), ("rule_configs", s.ruleOptions)]

def same (s t : Settings) : Bool :=
  s.enabledRules.same t.enabledRules && s.maxPerFile.same t.maxPerFile &&
    s.maxTotal.same t.maxTotal && s.threshold.same t.threshold &&
    s.severities.same t.severities && s.ruleOptions.same t.ruleOptions

/-! ### Options and severities of rules -/

def optionsOf (s : Settings) (rule : String) : Except Mismatch Value :=
  match s.ruleOptions with
  | .object ms => .ok ((Members.get? ms rule).getD .null)
  | .table rows => .ok ((Rows.get? rows (.text rule)).getD .null)
  | _ => .error .notAMapping

/-- The options of a rule as a mapping. -/
def optionMapping (s : Settings) (rule : String) : Except Mismatch Value := do
  let given ← s.optionsOf rule
  return .ofRows (← (Rule.givenOptions given).mapping?)

def holdsText (inner text : List Char) : Bool :=
  match text with
  | [] => inner.isEmpty
  | _ :: rest => inner.isPrefixOf text || holdsText inner rest

/-- The severity of a rule: the one that settings give it, or its own. Severities that are no mapping
give none, unless they hold the rule's id all the same. -/
def severityOf (s : Settings) (rule : String) (default : Value) : Except Mismatch Value :=
  if !s.severities.isGiven then .ok default
  else
    match s.severities with
    | .object ms => .ok ((Members.get? ms rule).getD default)
    | .table rows => .ok ((Rows.get? rows (.text rule)).getD default)
    | .list items => if items.any (·.isText rule) then .error .wrongKind else .ok default
    | .text t => if holdsText rule.toList t.toList then .error .wrongKind else .ok default
    | _ => .error .wrongKind

def rank? : Value → Option Nat
  | .text "info" => some 0
  | .text "warn" => some 1
  | .text "error" => some 2
  | _ => none

/-- The rank of a severity, or `default` for one that does not exist. Lists and mappings cannot be
looked up. -/
def rankOr (default : Nat) (v : Value) : Except Mismatch Nat :=
  if v.isContainer then .error .wrongKind else .ok ((rank? v).getD default)

/-- Whether a severity is at the threshold or above. A severity that does not exist counts as a
warning, and a threshold that does not exist lets everything through. -/
def meets (s : Settings) (severity : Value) : Except Mismatch Bool := do
  let rank ← rankOr 1 severity
  let least ← rankOr 0 s.threshold
  return least ≤ rank

/-! ### Checking -/

def checkRule (s : Settings) (rule : Rule) : Except Failure Unit :=
  match rule.check? with
  | none => .ok ()
  | some check => do
    let given ← (s.optionsOf rule.id).mapError .mismatch
    match check given with
    | some fault => .error (.badRuleOptions rule.id fault)
    | none => .ok ()

def checkSeverity (severity : Value) (fault : Failure) : Except Failure Unit :=
  if severity.isContainer then .error (.mismatch .wrongKind)
  else if (rank? severity).isSome then .ok ()
  else .error fault

def check (s : Settings) (rules : List Rule) : Except Failure Unit := do
  rules.forM s.checkRule
  let severities ← s.severities.rows?.mapError .mismatch
  severities.forM fun r => checkSeverity r.2 (.badSeverity r.1 r.2)
  checkSeverity s.threshold (.badThreshold s.threshold)

end Settings

end TidySpace
