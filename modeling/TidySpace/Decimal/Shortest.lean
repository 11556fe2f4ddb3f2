import TidySpace.Decimal.Binary64

/-! # The shortest decimal of a number

A decimal *reads back* as a number when it lies in the interval of values that round to the number.
`shortest` searches the decimal grids of one to seventeen digits for the first that has such a
decimal, and takes the nearer of the two neighbours of the number on that grid, an exact tie to the
even digit. `render` writes it: positional from 10⁻⁴ up to 10¹⁶, with an exponent otherwise.
-/

namespace TidySpace.Decimal

def digitCount (n : Nat) : Nat := (Nat.toDigits 10 n).length

/-- The greatest power of ten not above the quotient. -/
def floorLog10 (num den : Nat) : Int :=
  let power : Int := (digitCount num : Int) - (digitCount den : Int)
  if den * Nat.pow 10 power.toNat ≤ num * Nat.pow 10 (-power).toNat then power else power - 1

namespace Binary64

/-- Whether the decimal `point · 10 ^ power` rounds to the absolute value of the number. The
interval of such values reaches half a unit of the significand to each side, a quarter below a
power of two, and holds its ends when the significand is even. -/
def readsBack (x : Binary64) (point : Nat) (power : Int) : Bool :=
  let below := if x.significand = Nat.pow 2 52 ∧ -1074 < x.exponent then 1 else 2
  let unit : Int := x.exponent - 2
  let scale := Nat.pow 10 (-power).toNat * Nat.pow 2 unit.toNat
  let low := (4 * x.significand - below) * scale
  let high := (4 * x.significand + 2) * scale
  let value := point * Nat.pow 10 power.toNat * Nat.pow 2 (-unit).toNat
  if x.significand % 2 = 0 then low ≤ value && value ≤ high else low < value && value < high

/-- The neighbours of the number on the grid of step `10 ^ power`, if one reads back: the nearer. -/
def onGrid? (x : Binary64) (power : Int) : Option Nat :=
  let num := x.num * Nat.pow 10 (-power).toNat
  let den := x.den * Nat.pow 10 power.toNat
  let low := num / den
  match x.readsBack low power, x.readsBack (low + 1) power with
  | true, true => some (roundDiv num den)
  | true, false => some low
  | false, true => some (low + 1)
  | false, false => none

/-- Tries the grids from `digits` digits on, `fuel` of them. -/
def search (x : Binary64) (leading : Int) : Nat → Nat → Nat × Int
  | 0, _ => (x.num / x.den, 0)
  | fuel + 1, digits =>
    let power := leading - ((digits : Int) - 1)
    match x.onGrid? power with
    | some point => (point, power)
    | none => search x leading fuel (digits + 1)

/-- The shortest decimal that reads back, as a whole number and a power of ten. -/
def shortest (x : Binary64) : Nat × Int :=
  if x.isZero then (0, 0) else x.search (floorLog10 x.num x.den) 17 1

def dropZeros (digits : List Char) : List Char × Nat :=
  let zeros := (digits.reverse.takeWhile (· == '0')).length
  (digits.take (digits.length - zeros), zeros)

/-- Writes the decimal `0.d₁d₂… · 10 ^ place` in positional notation, with at least one digit on
each side of the point. -/
def positional (digits : List Char) (place : Int) : List Char :=
  if place ≤ 0 then '0' :: '.' :: List.replicate (-place).toNat '0' ++ digits
  else
    let whole := place.toNat
    let padded := digits ++ List.replicate (whole - digits.length) '0'
    let fraction := padded.drop whole
    padded.take whole ++ '.' :: (if fraction.isEmpty then ['0'] else fraction)

/-- Writes digits with a point after the first and an exponent of at least two digits. -/
def scientific (digits : List Char) (exponent : Int) : List Char :=
  let mantissa :=
    match digits with
    | [] => []
    | [d] => [d]
    | d :: ds => d :: '.' :: ds
  let size := Nat.toDigits 10 exponent.natAbs
  mantissa ++ 'e' :: (if exponent < 0 then '-' else '+') ::
    (if size.length < 2 then '0' :: size else size)

def render (x : Binary64) : String :=
  let (point, power) := x.shortest
  let (digits, zeros) := dropZeros (Nat.toDigits 10 point)
  let body :=
    if x.isZero then ['0', '.', '0']
    else
      let place : Int := power + zeros + digits.length
      if -4 < place ∧ place ≤ 16 then positional digits place else scientific digits (place - 1)
  String.ofList (if x.negative then '-' :: body else body)

/-- The number with one decimal place, a half to the even neighbour. -/
def renderOnePlace (x : Binary64) : String :=
  let tenths := roundDiv (x.num * 10) x.den
  let body := toString (tenths / 10) ++ "." ++ toString (tenths % 10)
  if x.negative then "-" ++ body else body

end Binary64

end TidySpace.Decimal
