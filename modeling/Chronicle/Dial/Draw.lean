import Chronicle.Dial
import Chronicle.Dial.Weight

/-!
# Drawing a start value

The start of a dial can be drawn: each value has a weight, and a number between zero and one picks
a point on the running sums of the weights.  The search on the sums is the plain binary one, so it
has an answer also where a negative weight leaves them unsorted.
-/

namespace Chronicle.Dial

def sumsFrom (total : Weight) : List Weight → Except Error (List Weight)
  | [] => .ok []
  | w :: ws => do
    let sum ← total.add w
    return sum :: (← sumsFrom sum ws)

def sums : List Weight → Except Error (List Weight)
  | [] => .ok []
  | w :: ws => do return w :: (← sumsFrom w ws)

/-- Halves the span until it is empty: left of the middle if the point lies below its sum. -/
def locate (sums : Array Weight) (point : Float) : Nat → Nat → Nat → Nat
  | 0, low, _ => low
  | fuel + 1, low, high =>
    if low < high then
      let middle := (low + high) / 2
      match sums[middle]? with
      | some sum =>
        if sum.exceeds point then locate sums point fuel low middle
        else locate sums point fuel (middle + 1) high
      | none => low
    else low

/-- The index that the point `u` of the unit span picks. -/
def draw (weights : List Weight) (u : Weight) : Except Error Nat := do
  let sums ← sums weights
  let total ← (sums.getLast?.getD (.whole 0)).toFloat
  if total ≤ 0 then throw .emptyTotal
  if !total.isFinite then throw .infiniteTotal
  return locate sums.toArray ((← u.toFloat) * total) weights.length 0 (weights.length - 1)

/-- Without a point to pick, the only weight above zero decides. -/
def onlyChoice (weights : List Weight) : Except Error Nat := do
  let _ ← draw weights (.whole 0)
  return weights.findIdx fun w => w.exceeds 0

def ofWeights (name : String) (weights : List Weight) (u? : Option Weight) (base : Nat) :
    Except Error Dial := do
  if weights.isEmpty then throw (.noWeights name)
  let start ← match u? with
    | some u => draw weights u
    | none => onlyChoice weights
  make name start (weights.length - 1) base

end Chronicle.Dial
