import TidySpace.Gap
import TidySpace.Options.Curly
import TidySpace.Rule

/-! # The curly spacing rule

Requires or forbids a space just inside the braces of objects, patterns and import and export
lists. For each construct the rule finds the pair of braces, and then asks of each side whether
the gap next to the brace is as the options want it. A gap that holds a comment is reported
without an edit when space has to go, for the edit would take the comment along.
-/

namespace TidySpace.CurlySpacing

def id : String := "style.object_curly_spacing"

inductive Side where
  | opening
  | closing
  deriving DecidableEq, Repr

def Side.name : Side → String
  | .opening => "opening"
  | .closing => "closing"

/-- The braces of a construct with the tokens next to them inside. -/
structure Braces where
  opening : Token
  second : Token
  penultimate : Token
  closing : Token

/-! ### Finding the braces -/

/-- The braces, if the two tokens are braces and have neighbours. -/
def bracesOf? (s : Source) (first last : Option Token) : Option Braces :=
  match first, last with
  | some opening, some closing =>
    if opening.text = ['\x7b'] ∧ closing.text = ['\x7d'] then
      match s.after? opening.stop, s.before? closing.start with
      | some second, some penultimate => some ⟨opening, second, penultimate, closing⟩
      | _, _ => none
    else none
  | _, _ => none

/-- The token after a list; a comma that closes the list is passed over. -/
def afterList? (s : Source) (stop : Int) : Option Token :=
  match s.after? stop with
  | some t => if t.text = [','] then s.after? t.stop else some t
  | none => none

def bracesAround? (s : Source) (start stop : Int) : Option Braces :=
  bracesOf? s (s.before? start) (afterList? s stop)

/-- The first element of a construct that is a name of its list. -/
def firstNamed? (c : BraceConstruct) : Option Node :=
  (c.elements.find? (·.kind == .named)).map Element.node

/-- The braces of a construct. Objects have them at their ends, if they have elements at all; an
object without elements is left alone. A declaration that imports has them around its names, if the
last of its elements is one, and one that exports has them around all its names. -/
def braces? (s : Source) (c : BraceConstruct) : Option Braces :=
  match c.kind, c.elements.head?, c.elements.getLast? with
  | .importDeclaration, _, some last =>
    if last.kind = .named then
      (firstNamed? c).bind fun first => bracesAround? s first.start last.node.stop
    else none
  | .exportDeclaration, some first, some last => bracesAround? s first.node.start last.node.stop
  | .objectPattern, some _, _ =>
    bracesOf? s (s.firstIn? c.node.start c.node.stop) (s.lastIn? c.node.start c.node.stop)
  | .objectExpression, some _, _ =>
    bracesOf? s (s.firstIn? c.node.start c.node.stop) (s.lastIn? c.node.start c.node.stop)
  | _, _, _ => none

/-! ### Reports -/

/-- Whether the closing side must be spaced: the exceptions turn the requirement around after a
closing bracket or brace. -/
def closingSpaced (o : CurlyOptions) (kind : ConstructKind) (penultimate : Token) : Bool :=
  if (o.arraysException && penultimate.text == [']']) ||
      (o.objectsException && penultimate.text == ['\x7d']) then !o.forKind kind
  else o.forKind kind

def message (side : Side) (fault : GapFault) : String :=
  match side, fault with
  | .opening, .missing => "A space is required after '\x7b'"
  | .opening, .unexpected => "There should be no space after '\x7b'"
  | .closing, .missing => "A space is required before '\x7d'"
  | .closing, .unexpected => "There should be no space before '\x7d'"

/-- The edit that mends the gap of two tokens: a space next to the brace, at byte `brace`, or the
whole gap deleted if it is blank. -/
def mend (b : Buffer) (fault : GapFault) (left right : Token) (brace : Int) : List Edit :=
  match fault with
  | .missing => [⟨brace, brace, [' ']⟩]
  | .unexpected => if b.gapIsBlank left right then [⟨left.stop, right.start, []⟩] else []

def extraOf (kind : ConstructKind) (side : Side) : Value :=
  .object [("construct", .text kind.name), ("side", .text side.name)]

/-- The report about the opening side, shown just after the brace. -/
def openingReport? (b : Buffer) (o : CurlyOptions) (kind : ConstructKind) (t : Braces) :
    Option Report :=
  (b.pairFault? t.opening t.second (o.forKind kind)).map fun fault =>
    { location := .place t.opening.stopPos.line t.opening.stopPos.column
      message := message .opening fault
      fix := mend b fault t.opening t.second t.opening.stop
      span := some (t.opening.start, t.opening.stop)
      extra := extraOf kind .opening }

/-- The report about the closing side, shown at the brace. -/
def closingReport? (b : Buffer) (o : CurlyOptions) (kind : ConstructKind) (t : Braces) :
    Option Report :=
  (b.pairFault? t.penultimate t.closing (closingSpaced o kind t.penultimate)).map fun fault =>
    { location := .token t.closing
      message := message .closing fault
      fix := mend b fault t.penultimate t.closing t.closing.start
      extra := extraOf kind .closing }

def reports (s : Source) (o : CurlyOptions) (c : BraceConstruct) : List Report :=
  match braces? s c with
  | some t =>
    (openingReport? s.toBuffer o c.kind t).toList ++ (closingReport? s.toBuffer o c.kind t).toList
  | none => []

/-! ### The rule -/

/-- Checks a list of options; any value that can be gone through is taken as a list. -/
def resolve (options : Value) : Except Failure CurlyOptions := do
  let items ← options.items?.mapError .mismatch
  let config ← (CurlyConfig.readItems items).mapError fun fault =>
    Failure.badOptions (.fields [] (some fault))
  return .ofConfig config

def readOptions (settings : Value) : Except Failure CurlyOptions := do
  let rows ← (Rule.givenOptions settings).rows?.mapError .mismatch
  resolve ((Rows.get? rows (.text "options")).getD (.list []))

/-- The findings in a JavaScript file; a file of another language or without a syntax tree has
none. -/
def visit (view : FileView) : Except Failure (List Finding) :=
  match view.language, view.tree with
  | some language, some tree =>
    if language.name = "javascript" then do
      let options ← readOptions view.options
      let constructs ← match language.constructs? with
        | some find => Except.ok (find tree)
        | none => Except.error Failure.noConstructs
      return (constructs.flatMap (reports view.source options)).map fun r =>
        r.finding id view.path (.text "warn") view.source.toBuffer
    else .ok []
  | _, _ => .ok []

def rule : Rule where
  id := id
  languages := ["javascript"]
  defaultSeverity := "warn"
  needsTree := true
  check? := some fun v =>
    match CurlyConfig.read (Rule.givenOptions v) with
    | .error fault => some fault
    | .ok _ => none
  visit := visit

end TidySpace.CurlySpacing
