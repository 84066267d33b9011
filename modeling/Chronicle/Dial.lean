import Chronicle.Variable

/-!
# Dials

A dial is a number between zero and its maximum, kept in mutable variables, one per binary digit
and the least significant first.  There are as many bits as the maximum needs, so some patterns of
bits may stand for a number above it; those are not valid.
-/

namespace Chronicle

structure Dial where
  name : String
  start : Nat
  max : Nat
  /-- Serial number of the lowest bit; the others follow it. -/
  base : Nat
  start_le : start ≤ max

namespace Dial

/-- The number of binary digits of `n`, none for zero. -/
def bitLength (n : Nat) : Nat := if n = 0 then 0 else n.log2 + 1

/-- A dial that starts at a number in its range. -/
def make (name : String) (start max : Int) (base : Nat) : Except Error Dial :=
  if max < 0 then .error (.negativeMax name)
  else if h : 0 ≤ start ∧ start ≤ max then
    .ok ⟨name, start.toNat, max.toNat, base, Int.toNat_le_toNat h.2⟩
  else .error (.startOutside name start max)

def width (d : Dial) : Nat := bitLength d.max

def bitName (d : Dial) (i : Nat) : String := d.name ++ "_bit" ++ toString i

def bits (d : Dial) : List Symbol :=
  (List.range d.width).map fun i => ⟨d.bitName i, d.base + i⟩

/-- The bit patterns of the numbers in range; the others have none. -/
def encode (d : Dial) (value : Int) : Except Error (List (Symbol × Bool)) :=
  if 0 ≤ value ∧ value ≤ d.max then
    .ok ((List.range d.width).map fun i => (⟨d.bitName i, d.base + i⟩, value.toNat.testBit i))
  else .error (.valueOutside d.name value d.max)

/-- The sum of `2 ^ i` over the names that read true, the first name having place `i`. -/
def sumBits (s : Valuation) : Nat → List String → Except Error Nat
  | _, [] => .ok 0
  | i, n :: ns => do
    let b ← s.read n
    let rest ← sumBits s (i + 1) ns
    return (if b then Nat.pow 2 i else 0) + rest

/-- The number that the bits stand for in a valuation. -/
def value (d : Dial) (s : Valuation) : Except Error Nat :=
  sumBits s 0 (d.bits.map Symbol.name)

def isValid (d : Dial) (s : Valuation) : Except Error Bool := do
  return decide ((← d.value s) ≤ d.max)

def literal (d : Dial) : String :=
  "NumericVariableProxy(" ++ Text.Quoted.encode d.name ++ ", max_value=" ++ toString d.max ++ ")"

end Dial

end Chronicle
