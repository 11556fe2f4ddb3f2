import TidySpace.Source

/-! # Edits

An edit replaces a byte range by a text. A batch is applied in one pass: edits are taken in source
order, one that overlaps an accepted edit is skipped, and one that repeats the edit accepted just
before it is dropped. Accepted edits are then spliced from the last to the first, so that the
offsets of those to come stay valid.
-/

namespace TidySpace

structure Edit where
  start : Int
  stop : Int
  replacement : List Char
  deriving DecidableEq, Repr

namespace Edit

/-- The source order of edits: by start, then by end. -/
def before (e f : Edit) : Bool := e.start < f.start || (e.start == f.start && e.stop ≤ f.stop)

/-- Edits in source order; edits of one range keep their order. -/
def sort (edits : List Edit) : List Edit := edits.mergeSort before

structure Selection where
  accepted : List Edit
  skipped : List Edit
  deriving DecidableEq, Repr

/-- Selects among edits in source order, where `last` was accepted before them. -/
def selectFrom (last : Option Edit) : List Edit → Selection
  | [] => ⟨[], []⟩
  | e :: rest =>
    if e.stop < e.start ∨ e.start < last.elim (-1) Edit.stop then
      let chosen := selectFrom last rest
      { chosen with skipped := e :: chosen.skipped }
    else if last = some e then selectFrom last rest
    else
      let chosen := selectFrom (some e) rest
      { chosen with accepted := e :: chosen.accepted }

def select (edits : List Edit) : Selection := selectFrom none (sort edits)

/-- Replaces the range in a buffer; an edit that reaches past the buffer changes nothing. -/
def splice (e : Edit) (data : List UInt8) : List UInt8 :=
  if (data.length : Int) < e.stop then data
  else takeTo data e.start ++ Utf8.encode e.replacement ++ dropTo data e.stop

def spliceAll (edits : List Edit) (data : List UInt8) : List UInt8 := edits.foldr splice data

/-- Applies a batch to a text. There is no result when the edits cut characters. -/
def applied? (text : List Char) (edits : List Edit) : Option (List Char) :=
  let accepted := (select edits).accepted
  if accepted.isEmpty then some text
  else Utf8.decode? (spliceAll accepted (Utf8.encode text))

end Edit

end TidySpace
