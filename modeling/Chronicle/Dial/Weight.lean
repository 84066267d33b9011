import Chronicle.Decimal
import Chronicle.Error

/-!
# Weights

A weight is a whole number of any size or a double.  Whole numbers add without loss; a sum with a
double is a double, and then the whole number has to have a nearest double itself.  A double is
compared with a weight by their exact values.
-/

namespace Chronicle

inductive Weight
  | whole (n : Int)
  | real (x : Float)

namespace Weight

/-- The double nearest to a whole number, unless it is beyond all of them. -/
def ofWhole (n : Int) : Except Error Float :=
  let size := Decimal.nearestDouble n.natAbs
  if size < Nat.pow 2 1024 then .ok (if n < 0 then -Float.ofNat size else Float.ofNat size)
  else .error .excessWeight

def toFloat : Weight → Except Error Float
  | whole n => ofWhole n
  | real x => .ok x

def add : Weight → Weight → Except Error Weight
  | whole m, whole n => .ok (whole (m + n))
  | a, b => do return real ((← a.toFloat) + (← b.toFloat))

/-- The whole number `m` and the power `e` of a finite double `m * 2 ^ e`. -/
def parts (x : Float) : Int × Int :=
  let bits := x.toBits.toNat
  let exponent : Nat := bits / Nat.pow 2 52 % Nat.pow 2 11
  let fraction : Nat := bits % Nat.pow 2 52
  let size : Int := if exponent = 0 then fraction else Int.pow 2 52 + fraction
  (if bits / Nat.pow 2 63 = 0 then size else -size, (max exponent 1 : Nat) - 1075)

/-- A double lies below a weight. -/
def exceeds (x : Float) : Weight → Bool
  | whole n =>
    let (m, e) := parts x
    if x.isFinite then m * Int.pow 2 e.toNat < n * Int.pow 2 (-e).toNat else x < 0
  | real y => x < y

end Weight

end Chronicle
