/-! # Binary numbers of 64 bits

A finite binary64 number is a sign, a significand below 2⁵³ and a power of two, and all arithmetic
on it here is exact. `ofRatio?` is the number nearest to a quotient, a half to the even significand;
`ofDecimal?` reads a decimal through it.
-/

namespace TidySpace.Decimal

/-- The whole number nearest to `num / den`; of two equally near, the even one. -/
def roundDiv (num den : Nat) : Nat :=
  let q := num / den
  let twice := 2 * (num % den)
  if twice < den then q
  else if den < twice then q + 1
  else if q % 2 = 0 then q else q + 1

/-- The number `± significand · 2 ^ exponent`. The significand is at least 2⁵² unless the exponent
is the least one, `-1074`, so each number has one form and zero has one form for each sign. -/
structure Binary64 where
  negative : Bool
  significand : Nat
  exponent : Int
  deriving DecidableEq, Repr

namespace Binary64

def zero (negative : Bool) : Binary64 := ⟨negative, 0, -1074⟩

def isZero (x : Binary64) : Bool := x.significand == 0

def num (x : Binary64) : Nat := x.significand * Nat.pow 2 x.exponent.toNat

def den (x : Binary64) : Nat := Nat.pow 2 (-x.exponent).toNat

/-- The quotient `num / den` in units of `2 ^ exponent`, rounded down. -/
def floorUnits (num den : Nat) (exponent : Int) : Nat :=
  num * Nat.pow 2 (-exponent).toNat / (den * Nat.pow 2 exponent.toNat)

def roundUnits (num den : Nat) (exponent : Int) : Nat :=
  roundDiv (num * Nat.pow 2 (-exponent).toNat) (den * Nat.pow 2 exponent.toNat)

def ofRatio? (negative : Bool) (num den : Nat) : Option Binary64 :=
  if num = 0 then some (zero negative)
  else
    let size : Int := (num.log2 : Int) - (den.log2 : Int)
    let wanted := if Nat.pow 2 52 ≤ floorUnits num den (size - 52) then size - 52 else size - 53
    let exponent := max wanted (-1074)
    let significand := roundUnits num den exponent
    let x : Binary64 :=
      if significand = Nat.pow 2 53 then ⟨negative, Nat.pow 2 52, exponent + 1⟩
      else ⟨negative, significand, exponent⟩
    if x.exponent ≤ 971 then some x else none

def ofInt? (n : Int) : Option Binary64 := ofRatio? (n < 0) n.natAbs 1

/-- The number nearest to `± digits · 10 ^ power`, if it is in range. Powers beyond what can matter
are settled without computing them. -/
def ofDecimal? (negative : Bool) (digits : Nat) (power : Int) : Option Binary64 :=
  if digits = 0 then some (zero negative)
  else if 400 < power then none
  else if power + digits.log2 < -1200 then some (zero negative)
  else ofRatio? negative (digits * Nat.pow 10 power.toNat) (Nat.pow 10 (-power).toNat)

def eqInt (x : Binary64) (n : Int) : Bool :=
  x.num == n.natAbs * x.den && (n == 0 || x.negative == decide (n < 0))

def same (x y : Binary64) : Bool := x == y || (x.isZero && y.isZero)

end Binary64

end TidySpace.Decimal
