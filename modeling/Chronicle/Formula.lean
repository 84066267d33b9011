import Chronicle.Dial

/-!
# Formulas

A formula reads names and dials and joins what it reads.  Conjunction and disjunction stop at the
first part that decides them, a choice evaluates one branch, and everything else evaluates all its
parts, from left to right.
-/

namespace Chronicle

inductive Comparison
  | lt
  | le
  | eq
  | ne
  | ge
  | gt
  deriving DecidableEq, Repr

def Comparison.holds : Comparison → Int → Int → Bool
  | lt, a, b => a < b
  | le, a, b => a ≤ b
  | eq, a, b => a == b
  | ne, a, b => a != b
  | ge, a, b => b ≤ a
  | gt, a, b => b < a

inductive Formula
  | constant (b : Bool)
  | value (name : String)
  | known (name : String)
  | not (f : Formula)
  | all (fs : List Formula)
  | any (fs : List Formula)
  | differ (f g : Formula)
  | choose (c f g : Formula)
  | atLeast (k : Int) (fs : List Formula)
  | compare (d : Dial) (c : Comparison) (k : Int)
  | inRange (d : Dial)
  deriving Inhabited

namespace Formula

mutual

def eval (s : Valuation) : Formula → Except Error Bool
  | constant b => .ok b
  | value name => s.read name
  | known name => .ok (s.contains name)
  | not f => do return !(← eval s f)
  | all fs => evalAll s fs
  | any fs => evalAny s fs
  | differ f g => do
    let a ← eval s f
    let b ← eval s g
    return a != b
  | choose c f g => do
    if ← eval s c then eval s f else eval s g
  | atLeast k fs => do return decide (k ≤ (← count s fs))
  | compare d c k => do return c.holds (← d.value s) k
  | inRange d => d.isValid s

def evalAll (s : Valuation) : List Formula → Except Error Bool
  | [] => .ok true
  | f :: fs => do
    if ← eval s f then evalAll s fs else return false

def evalAny (s : Valuation) : List Formula → Except Error Bool
  | [] => .ok false
  | f :: fs => do
    if ← eval s f then return true else evalAny s fs

def count (s : Valuation) : List Formula → Except Error Nat
  | [] => .ok 0
  | f :: fs => do
    let b ← eval s f
    let n ← count s fs
    return if b then n + 1 else n

end

def rule (f : Formula) : Rule := fun s => eval s f

end Formula

end Chronicle
