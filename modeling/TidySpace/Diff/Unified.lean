import TidySpace.Diff.Script

/-! # Unified differences

A script as text: the names of both sides, then hunks. A hunk shows changes with up to three kept
lines around them; changes with more than six kept lines between them are in different hunks.

The lines of a difference are a text cut after each line break. Besides carriage returns and line feeds,
everything that starts a new line or page on a display breaks lines here. A line keeps its break; the
last one may lack it.
-/

namespace TidySpace.Diff

/-! ### Lines -/

def isBreak (c : Char) : Bool :=
  let n := c.toNat
  (0xA ≤ n && n ≤ 0xD) || (0x1C ≤ n && n ≤ 0x1E) || n == 0x85 || n == 0x2028 || n == 0x2029

def consLine (c : Char) : List (List Char) → List (List Char)
  | [] => [[c]]
  | line :: lines => (c :: line) :: lines

/-- The lines of a text with their breaks; a carriage return and line feed are one break. -/
def cutLines : List Char → List (List Char)
  | [] => []
  | '\r' :: '\n' :: cs => ['\r', '\n'] :: cutLines cs
  | c :: cs => if isBreak c then [c] :: cutLines cs else consLine c (cutLines cs)

theorem consLine_flatten (c : Char) (lines : List (List Char)) :
    (consLine c lines).flatten = c :: lines.flatten := by
  cases lines <;> rfl

theorem cutLines_flatten (cs : List Char) : (cutLines cs).flatten = cs := by
  fun_induction cutLines cs with
  | case1 => rfl
  | case2 cs ih => simp [ih]
  | case3 c cs _ _ ih => simp [ih]
  | case4 c cs _ _ ih => rw [consLine_flatten, ih]

def lines (cs : List Char) : List String := (cutLines cs).map String.ofList

/-! ### Hunks -/

def context : Nat := 3

/-- Changes that are shown together, and where they start on both sides, counting from zero. -/
structure Hunk where
  left : Nat
  right : Nat
  segments : List Segment
  deriving DecidableEq, Repr

def consSegment (i j : Nat) (s : Segment) : List Hunk → List Hunk
  | [] => [⟨i, j, [s]⟩]
  | h :: hs => ⟨i, j, s :: h.segments⟩ :: hs

/-- Cuts segments into hunks inside long kept stretches; the first one starts at the given
places. -/
def hunksFrom (i j : Nat) : List Segment → List Hunk
  | [] => []
  | .keep lines :: rest =>
    let later := hunksFrom (i + lines.length) (j + lines.length) rest
    let skipped := lines.length - context
    if 2 * context < lines.length then
      ⟨i, j, [.keep (lines.take context)]⟩ ::
        consSegment (i + skipped) (j + skipped) (.keep (lines.drop skipped)) later
    else consSegment i j (.keep lines) later
  | .change removed added :: rest =>
    consSegment i j (.change removed added)
      (hunksFrom (i + removed.length) (j + added.length) rest)

/-- Shortens a kept stretch at the end to what is shown after changes. -/
def trimEnd : List Segment → List Segment
  | [] => []
  | [.keep lines] => [.keep (lines.take context)]
  | s :: rest => s :: trimEnd rest

def hunks (segments : List Segment) : List Hunk :=
  let found :=
    match segments with
    | .keep lines :: rest =>
      let skipped := lines.length - context
      hunksFrom skipped skipped (.keep (lines.drop skipped) :: trimEnd rest)
    | segments => hunksFrom 0 0 (trimEnd segments)
  found.filter (·.segments.any Segment.isChange)

/-! ### Printing -/

/-- A range of lines, from one on. A range of one line shows no length, and an empty one the line
before it. -/
def rangeText (start length : Nat) : String :=
  if length = 1 then toString (start + 1)
  else if length = 0 then toString start ++ ",0"
  else toString (start + 1) ++ "," ++ toString length

def segmentText : Segment → List String
  | .keep lines => lines.map (" " ++ ·)
  | .change removed added => removed.map ("-" ++ ·) ++ added.map ("+" ++ ·)

def hunkText (h : Hunk) : List String :=
  let count (side : Segment → List String) := (h.segments.flatMap side).length
  ("@@ -" ++ rangeText h.left (count Segment.left) ++ " +" ++
      rangeText h.right (count Segment.right) ++ " @@\n") ::
    h.segments.flatMap segmentText

/-- The unified difference of two texts under a path. Texts without a difference have none. -/
def unified (original fixed : List Char) (path : String) : String :=
  match hunks (script (lines original) (lines fixed)) with
  | [] => ""
  | found =>
    String.join <|
      ("--- a/" ++ path ++ "\n") :: ("+++ b/" ++ path ++ "\n") :: found.flatMap hunkText

end TidySpace.Diff
