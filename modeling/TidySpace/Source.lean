import TidySpace.Search
import TidySpace.Text.Line
import TidySpace.Tree

/-! # Sources

A `Buffer` is a text with its bytes and lines, and turns byte offsets into positions and back. A
`Source` adds the tokens of a syntax tree: its non-empty leaves in order, where comments are left
out and atomic nodes count as leaves. Offsets are any integers. Those outside the buffer are
clamped, and a character that an offset cuts does not count into the column.

Slices have signed bounds: a negative bound counts from the end, and every bound is clamped to the
sequence, so that a slice always exists. It is empty when its bounds cross.
-/

namespace TidySpace

open Text (Line)

/-! ### Slices by signed bounds -/

/-- Where a signed bound falls in a sequence of `n` items. -/
def clampIndex (n : Nat) (i : Int) : Nat :=
  if i < 0 then (i + n).toNat else min i.toNat n

@[simp] theorem clampIndex_natCast (n i : Nat) : clampIndex n (i : Int) = min i n := by
  unfold clampIndex
  split <;> omega

def slice {α : Type} (xs : List α) (a b : Int) : List α :=
  xs.extract (clampIndex xs.length a) (clampIndex xs.length b)

def takeTo {α : Type} (xs : List α) (b : Int) : List α := xs.take (clampIndex xs.length b)

def dropTo {α : Type} (xs : List α) (a : Int) : List α := xs.drop (clampIndex xs.length a)

def atIndex? {α : Type} (xs : List α) (i : Int) : Option α :=
  if i < 0 then
    if -i ≤ xs.length then xs[(i + xs.length).toNat]? else none
  else xs[i.toNat]?

/-! ### Buffers -/

/-- A place in a text: line and column from 1, columns counting characters. -/
structure Position where
  line : Nat
  column : Nat
  deriving DecidableEq, Repr

def Position.le (p q : Position) : Prop := p.line < q.line ∨ p.line = q.line ∧ p.column ≤ q.column

instance : LE Position := ⟨Position.le⟩

instance (p q : Position) : Decidable (p ≤ q) :=
  inferInstanceAs (Decidable (p.line < q.line ∨ p.line = q.line ∧ p.column ≤ q.column))

/-- A text with its bytes, the offsets at which its lines begin, and the lines' contents. -/
structure Buffer where
  text : List Char
  data : List UInt8
  lineStarts : List Nat
  lines : List (List Char)

namespace Buffer

def ofText (text : List Char) : Buffer :=
  let data := Utf8.encode text
  ⟨text, data, Text.lineStarts data, (Text.split text).map Line.content⟩

/-- The buffer of bytes that need not be UTF-8: that of the text which they are read as, with U+FFFD for
each stretch that begins no character. -/
def ofBytes (bytes : List UInt8) : Buffer := ofText (Utf8.decodeReplacing bytes)

def clamp (b : Buffer) (offset : Int) : Nat := (min offset b.data.length).toNat

/-- The number of the line that holds a byte offset: how many lines begin at or before it. -/
def lineAt (b : Buffer) (offset : Nat) : Nat := b.lineStarts.countP (· ≤ offset)

def position (b : Buffer) (offset : Int) : Position :=
  let stop := b.clamp offset
  let line := b.lineAt stop
  let start := b.lineStarts.getD (line - 1) 0
  ⟨line, (Utf8.decodeSkipping (b.data.extract start stop)).length + 1⟩

/-- The byte offset of a place. Places before the text are at its start and lines after it at its
end; columns are clamped to the line. -/
def offset (b : Buffer) (line column : Int) : Nat :=
  if line < 1 then 0
  else if (b.lineStarts.length : Int) < line then b.data.length
  else
    let index := (line - 1).toNat
    let before := (b.lines.getD index []).take (column - 1).toNat
    b.lineStarts.getD index 0 + Utf8.width before

/-- The content of a line by its number; numbers from 0 down count lines from the end. -/
def line? (b : Buffer) (number : Int) : Option (List Char) := atIndex? b.lines (number - 1)

def slice (b : Buffer) (start stop : Int) : List Char :=
  Utf8.decodeReplacing (TidySpace.slice b.data start stop)

end Buffer

/-- The text between two offsets of bytes; there is none if they cut a character. -/
def textBetween (data : List UInt8) (start stop : Int) : List Char :=
  (Utf8.decode? (slice data start stop)).getD []

/-! ### Tokens -/

structure Token where
  kind : String
  text : List Char
  start : Int
  stop : Int
  startPos : Position
  stopPos : Position
  deriving DecidableEq, Repr

def Buffer.token (b : Buffer) (kind : String) (start stop : Int) : Token :=
  ⟨kind, b.slice start stop, start, stop, b.position start, b.position stop⟩

/-- Whether the children of a node are looked into for tokens. -/
def Node.isOpen (n : Node) : Bool := !n.children.isEmpty && !n.isAtomic

/-- The nodes that are tokens, among the given nodes and all below them. -/
def Node.tokensOf : List Node → List Node
  | [] => []
  | n :: rest =>
    if n.isComment then tokensOf rest
    else if n.isOpen then tokensOf (n.children ++ rest)
    else if n.stop ≤ n.start then tokensOf rest
    else n :: tokensOf rest
termination_by ns => Node.weighAll ns
decreasing_by
  all_goals simp only [Node.weighAll, Node.weighAll_append, Node.weigh_eq]; omega

structure Source extends Buffer where
  tokens : List Token

namespace Source

def ofText (text : List Char) (tree : Option Node) : Source :=
  let b := Buffer.ofText text
  let leaves := tree.elim [] fun root => Node.tokensOf [root]
  ⟨b, leaves.map fun n => b.token n.kind n.start n.stop⟩

def ofBytes (bytes : List UInt8) (tree : Option Node) : Source :=
  ofText (Utf8.decodeReplacing bytes) tree

def starts (s : Source) : List Int := s.tokens.map Token.start

def stops (s : Source) : List Int := s.tokens.map Token.stop

def firstIn? (s : Source) (start stop : Int) : Option Token :=
  s.tokens[lowerBound s.starts start]?.filter (·.stop ≤ stop)

/-- The last token that stops at or before an offset. -/
def before? (s : Source) (offset : Int) : Option Token :=
  match upperBound s.stops offset with
  | 0 => none
  | index + 1 => s.tokens[index]?

/-- The first token that starts at or after an offset. -/
def after? (s : Source) (offset : Int) : Option Token := s.tokens[lowerBound s.starts offset]?

def lastIn? (s : Source) (start stop : Int) : Option Token :=
  (s.before? stop).filter (start ≤ ·.start)

end Source

end TidySpace
