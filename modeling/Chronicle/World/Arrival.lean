import Chronicle.Period

/-!
# Arrivals

To arrive in a period with some knowledge is to find a history: a consistent state that extends
the knowledge, under which every latch that fired in the period can still have fired, and which
agrees with all that the period has seen since.

A firing is replayed in its context: of the history only what the latch depends on, with the
values its antecedent recorded and the latch itself true.  If the context has to flip mutables to
make the latch fire, the flips become part of the history.
-/

namespace Chronicle

/-- A history that fits a period. -/
structure Arrival where
  /-- The consistent state that the search came to. -/
  candidate : Valuation
  /-- The same with what the firings need. -/
  resolved : Valuation
  /-- The start values that it fixes. -/
  overrides : Valuation
  deriving DecidableEq

namespace Arrival

variable (g : Graph)

/-- The history as the latch saw it when it fired. -/
def firingContext (resolved : Valuation) (a : Antecedent) : Except Error Valuation := do
  let trigger ← g.get a.trigger
  let seen := resolved.restrictedTo ((g.relevantTo trigger).map Variable.name)
  return (seen.update a.recorded.entries).set trigger.name true

def fires (resolved : Valuation) (a : Antecedent) : Except Error Bool := do
  g.isConsistent .exact (← firingContext g resolved a)

/-- The history with the first flips that let the latch fire and leave the whole consistent. -/
def explain (resolved : Valuation) (a : Antecedent) : Except Error (Option Valuation) := do
  let context ← firingContext g resolved a
  let accept (firing : Valuation) : Except Error (Option Valuation) := do
    if ← g.isConsistent .exact firing then
      let patched := resolved.update (firing.flipsFrom context).entries
      return if ← g.isConsistent .latched patched then some patched else none
    else return none
  Search.first accept (g.unknownMutables context) context

def explainAll : List Antecedent → Valuation → Except Error (Option Valuation)
  | [], resolved => return some resolved
  | a :: rest, resolved => do
    match ← explain g resolved a with
    | some patched => explainAll rest patched
    | none => return none

def allFire (resolved : Valuation) : List Antecedent → Except Error Bool
  | [] => return true
  | a :: rest => do
    if ← fires g resolved a then allFire resolved rest else return false

/-- Explains all firings; a later explanation must not undo an earlier one. -/
def replay (antecedents : List Antecedent) (candidate : Valuation) :
    Except Error (Option Valuation) := do
  match ← explainAll g antecedents candidate with
  | none => return none
  | some resolved =>
    return if ← allFire g resolved antecedents then some resolved else none

/-- The value says more than the period would assume of the variable at its start. -/
def isNews (v : Variable) (b : Bool) : Bool :=
  if v.isMutable then b != v.default else v.isTriggered && b

/-- The news among the values whose start is still open. -/
def startOverrides (period : Period) (resolved : Valuation) : Valuation :=
  Period.collect g fun v =>
    if period.canOverride v.name then (resolved.get? v.name).filter (isNews v) else none

/-- The history of a candidate, if it fits the period: what the firings need can all be written,
and with it the period's knowledge is still consistent. -/
def ofCandidate (period : Period) (candidate : Valuation) : Except Error (Option Arrival) := do
  match ← replay g period.antecedentList candidate with
  | none => return none
  | some resolved =>
    let overrides := startOverrides g period resolved
    if (resolved.flipsFrom candidate).names.all overrides.contains then
      let known := (period.currentState g).update overrides.entries
      return if (← g.findConsistent .latched known).isSome then
        some ⟨candidate, resolved, overrides⟩ else none
    else return none

/-- The first history in search order that extends the knowledge and fits the period. -/
def find (merged : Valuation) (period : Period) : Except Error (Option Arrival) :=
  let accept (candidate : Valuation) : Except Error (Option Arrival) := do
    if ← g.isConsistent .latched candidate then ofCandidate g period candidate else return none
  Search.first accept (g.unknownMutables merged) merged

/-- What the history pins beyond the knowledge. -/
def corrections (a : Arrival) (merged : Valuation) : Valuation := a.resolved.flipsFrom merged

end Arrival

end Chronicle
