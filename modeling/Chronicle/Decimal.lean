import Chronicle.Text.Numeral

/-!
# Decimal numbers

A number that is written with a point or an exponent stands for the double nearest to it.  It is
held by its digits, the fewest that tell this double from its neighbours.
-/

namespace Chronicle

/-- The number `digits * 10 ^ exponent`, or its negative. -/
structure Decimal where
  negative : Bool
  digits : Nat
  exponent : Int
  deriving DecidableEq, Repr

namespace Decimal

/-- The nearest number with at most 53 binary digits from the first to the last that is one; of
two as near, the one whose last place is even. -/
def nearestDouble (n : Nat) : Nat :=
  let unit := Nat.pow 2 (n.log2 + 1 - 53)
  let whole := n / unit
  let rest := n % unit
  if 2 * rest < unit || (2 * rest = unit && whole % 2 = 0) then whole * unit
  else (whole + 1) * unit

def isZero (x : Decimal) : Bool := x.digits = 0

/-- The whole number that the double is, if it is one. -/
def whole? (x : Decimal) : Option Int :=
  let numerator := x.digits * Nat.pow 10 x.exponent.toNat
  let denominator := Nat.pow 10 (-x.exponent).toNat
  if numerator % denominator = 0 then
    let n := nearestDouble (numerator / denominator)
    some (if x.negative then -n else n)
  else none

def toFloat (x : Decimal) : Float :=
  let size := Float.ofScientific x.digits (x.exponent < 0) x.exponent.natAbs
  if x.negative then -size else size

/-- The digits from the first to the last that is not zero. -/
def significant (x : Decimal) : List Char :=
  ((Nat.toDigits 10 x.digits).reverse.dropWhile (· = '0')).reverse

/-- Digits with a point behind the first `place` of them.  Zeros fill up both sides, and at least
one digit stands on each. -/
def pointed (ds : List Char) (place : Int) : List Char :=
  let whole := ds.take place.toNat ++ List.replicate (place.toNat - ds.length) '0'
  let fraction := List.replicate (-place).toNat '0' ++ ds.drop place.toNat
  let orZero (cs : List Char) : List Char := if cs.isEmpty then ['0'] else cs
  orZero whole ++ '.' :: orZero fraction

/-- Digits with a point behind the first if there are more, and an exponent of at least two
places. -/
def scientific (ds : List Char) (exponent : Int) : List Char :=
  let fraction := if ds.length ≤ 1 then [] else '.' :: ds.drop 1
  let places := Nat.toDigits 10 exponent.natAbs
  let sign := if exponent < 0 then '-' else '+'
  ds.take 1 ++ fraction ++ 'e' :: sign :: List.replicate (2 - places.length) '0' ++ places

/-- A decimal is written with a point from one ten thousandth up to below ten to the sixteenth,
and with an exponent elsewhere. -/
def text (x : Decimal) : String :=
  let place := x.exponent + (Nat.toDigits 10 x.digits).length
  let ds := x.significant
  let size :=
    if x.isZero then pointed ds 0
    else if -4 < place ∧ place ≤ 16 then pointed ds place
    else scientific ds (place - 1)
  String.ofList (if x.negative then '-' :: size else size)

end Decimal

end Chronicle
