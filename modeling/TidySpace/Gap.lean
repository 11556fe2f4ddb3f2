import TidySpace.Source
import TidySpace.Text.Blank

/-! # Gaps between tokens

The gap of two tokens is the text from the end of the first to the start of the second. It is
*spaced* when it holds a space or a tab outside block comments; how many does not matter. Whether a
gap meets a requirement is only asked of tokens on one line.
-/

namespace TidySpace

inductive GapFault where
  | missing
  | unexpected
  deriving DecidableEq, Repr

namespace Gap

def afterComment? : List Char → Option (List Char)
  | [] => none
  | '*' :: '/' :: rest => some rest
  | _ :: rest => afterComment? rest

theorem length_of_afterComment? {cs rest : List Char} (h : afterComment? cs = some rest) :
    rest.length < cs.length := by
  fun_induction afterComment? cs with
  | case1 => simp at h
  | case2 rest' =>
    cases h
    simp only [List.length_cons]
    omega
  | case3 c cs _ ih =>
    have := ih h
    simp only [List.length_cons]
    omega

/-- A text without its block comments. The opening of a comment that does not end is plain text. -/
def dropComments : List Char → List Char
  | [] => []
  | '/' :: '*' :: rest =>
    match _h : afterComment? rest with
    | some rest' => dropComments rest'
    | none => '/' :: dropComments ('*' :: rest)
  | c :: rest => c :: dropComments rest
termination_by cs => cs.length
decreasing_by
  · have := length_of_afterComment? _h
    simp only [List.length_cons]
    omega
  all_goals simp only [List.length_cons]; omega

def isSpaced (cs : List Char) : Bool := (dropComments cs).any Text.isGap

def fault? (mustBeSpaced spaced : Bool) : Option GapFault :=
  if mustBeSpaced && !spaced then some .missing
  else if !mustBeSpaced && spaced then some .unexpected
  else none

theorem fault?_eq_none_iff {must spaced : Bool} : fault? must spaced = none ↔ must = spaced := by
  cases must <;> cases spaced <;> decide

end Gap

namespace Buffer

def gap (b : Buffer) (left right : Token) : List Char := b.slice left.stop right.start

/-- Whether a space or a tab separates two tokens. -/
def isSpacedPair (b : Buffer) (left right : Token) : Bool := Gap.isSpaced (b.gap left right)

def gapIsBlank (b : Buffer) (left right : Token) : Bool := Text.allBlank (b.gap left right)

/-- The fault of the gap of two tokens; tokens on different lines have none. -/
def pairFault? (b : Buffer) (left right : Token) (mustBeSpaced : Bool) : Option GapFault :=
  if left.stopPos.line = right.startPos.line then
    Gap.fault? mustBeSpaced (b.isSpacedPair left right)
  else none

end Buffer

end TidySpace
