import Chronicle.Period

/-!
# Access to a period by symbol

The operations on a period for a caller who holds a symbol: the graph must hold that very symbol,
and what was written before a refusal stays written.
-/

namespace Chronicle.Period

/-- An operation on a period that may be refused; the period it leaves behind stays. -/
abbrev Action := ExceptT Error (StateM Period)

variable (g : Graph)

def observe (s : Symbol) (b : Bool) : Action Unit := do
  let v ← g.require s
  modify fun p => p.observed v.name b

def modifyTo (s : Symbol) (b : Bool) : Action Unit := do
  let v ← g.require s
  modify fun p => p.modified g v.name b

/-- The antecedent is kept even of a latch that the graph does not hold; only then it is refused.
-/
def trigger (t : Variable) : Action Antecedent := do
  let a := (← get).antecedentOf g t
  modify fun p => p.recordAntecedent g t
  let v ← g.require t.symbol
  modify fun p => p.modified g v.name true
  return a

def override (s : Symbol) (b : Bool) : Action Unit := do
  let v ← g.require s
  let p ← (← get).overrideStart v.name b
  set p

def recordOf (s : Symbol) : Action Record := do
  let v ← g.require s
  return (← get).record v.name

/-- Overrides a start value; among the corrections a refusal means that a firing stays
unexplained. -/
def correct (corrections : List String) (name : String) (b : Bool) : Action Unit := do
  let p ← get
  match p.overrideStart name b with
  | .ok p => set p
  | .error e =>
    throw (if corrections.contains name then .unexplained p.time name else e)

def correctAll (corrections : List String) : List (String × Bool) → Action Unit
  | [] => pure ()
  | (name, b) :: rest => do
    correct corrections name b
    correctAll corrections rest

def overrideAll (corrections : List String) : List (Symbol × Bool) → Action Unit
  | [] => pure ()
  | (s, b) :: rest => do
    let v ← g.require s
    correct corrections v.name b
    overrideAll corrections rest

end Chronicle.Period
