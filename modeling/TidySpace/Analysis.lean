import TidySpace.Settings
import TidySpace.Standard
import TidySpace.Suppression

/-! # Analysis and fixing of a text

Runs rules over one text. The syntax tree comes from a grammar, which is asked once if some rule
needs a tree; rules that need one are passed over where there is none. A rule that fails is
remarked on and contributes nothing. What the rules find gets the severity that settings ask for,
and is kept if it reaches the threshold and no comment suppresses it; then it is put in order and
cut to the limit.

Fixing applies the edits of the findings and analyses the new text, pass by pass, until no edit is
left, the edits change nothing, or ten passes are done. An edit that overlapped another one is found
again on the next pass.
-/

namespace TidySpace

/-- The syntax tree of a text, where there is one. -/
abbrev Grammar := List Char → Option Node

namespace Settings

/-- The rules for a language that patterns select, or, without patterns, those that are enabled;
their settings are checked. -/
def chooseRules (s : Settings) (language : String) (patterns : Value) :
    Except Failure (List Rule) := do
  let listed ← (Standard.registry.enabled (patterns.orElse s.enabledRules) language).mapError
    .mismatch
  let rules := listed.map Listed.item
  s.check rules
  return rules

/-- The given rules as they are, or else those for a language that are enabled. -/
def rulesOr (s : Settings) (language : String) : Option (List Rule) → Except Failure (List Rule)
  | some rules => .ok rules
  | none => s.chooseRules language .null

/-- The first findings up to a limit: all of them where it is null, and all but some at the end
where it is negative. -/
def cut (limit : Value) (findings : List Finding) : Except Mismatch (List Finding) :=
  match limit with
  | .null => .ok findings
  | .bool b => .ok (findings.take (if b then 1 else 0))
  | .int n => .ok (takeTo findings n)
  | _ => .error .wrongKind

/-- Gives findings a severity, and keeps them if it reaches the threshold. -/
def rate (s : Settings) (severity : Value) (findings : List Finding) :
    Except Mismatch (List Finding) :=
  if findings.isEmpty then .ok []
  else do
    let kept ← s.meets severity
    return if kept then findings.map fun f => { f with severity } else []

end Settings

namespace Finding

/-- The order of findings: by the start of their range, then by rule. -/
def before (f g : Finding) : Bool := f.start < g.start || (f.start == g.start && f.rule ≤ g.rule)

/-- Findings in order; those of one rule at one place keep their order. -/
def sort (findings : List Finding) : List Finding := findings.mergeSort before

def unsuppressed (text : List Char) (findings : List Finding) : List Finding :=
  let suppressions := Suppressions.ofText text
  findings.filter fun f => !suppressions.covers f.rule f.start

end Finding

namespace Analysis

def ofRule (s : Settings) (view : FileView) (rule : Rule) : Logged (List Finding) :=
  if rule.needsTree && view.tree.isNone then .done []
  else do
    let options ← Logged.lift ((s.optionMapping rule.id).mapError .mismatch)
    match rule.visit (view.withOptions options) with
    | .error cause =>
      Logged.warn (.ruleFailed rule.id view.path cause)
      return []
    | .ok findings =>
      Logged.lift <| (do
        let severity ← s.severityOf rule.id (.text rule.defaultSeverity)
        s.rate severity findings).mapError .mismatch

def parse (grammar : Grammar) (rules : List Rule) (text : List Char) : Logged (Option Node) :=
  if rules.any Rule.needsTree then do
    Logged.countParse
    return grammar text
  else .done none

def run (grammar : Grammar) (s : Settings) (rules : List Rule) (path : String) (text : List Char) :
    Logged (List Finding) := do
  let tree ← parse grammar rules text
  let view := FileView.ofText path text tree (some Language.javascript) .null
  let findings ← Logged.gather (ofRule s view) rules
  let kept := Finding.sort (Finding.unsuppressed text findings)
  Logged.lift ((Settings.cut s.maxPerFile kept).mapError .mismatch)

end Analysis

/-! ### Fixing -/

namespace Fixing

def maxPasses : Nat := 10

/-- The text that the edits of findings make, if they change anything. -/
def step? (text : List Char) (findings : List Finding) : Except Failure (Option (List Char)) :=
  let edits := Finding.edits findings
  if edits.isEmpty then .ok none
  else
    match Edit.applied? text edits with
    | none => .error .notUtf8
    | some fixed => .ok (if fixed = text then none else some fixed)

/-- Goes through passes, as many as `passes` at most, from a text and its findings. -/
def passesFrom (analyze : List Char → Logged (List Finding)) :
    Nat → List Char → List Finding → Logged (List Char × List Finding)
  | 0, text, findings => .done (text, findings)
  | passes + 1, text, findings => do
    match ← Logged.lift (step? text findings) with
    | none => return (text, findings)
    | some fixed =>
      let left ← analyze fixed
      passesFrom analyze passes fixed left

def run (grammar : Grammar) (s : Settings) (rules : List Rule) (path : String) (text : List Char) :
    Logged (List Char × List Finding) := do
  let findings ← Analysis.run grammar s rules path text
  passesFrom (Analysis.run grammar s rules path) maxPasses text findings

end Fixing

end TidySpace
