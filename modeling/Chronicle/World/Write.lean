import Chronicle.World.Reconcile

/-!
# Writes

Only a mutable can be written, and an irreversible one does not return to its default.  After the
write the latches that depend on it are examined in evaluation order.  A latch fires if its rule
holds on the state that the knowledge without the latch, and without what is derived from it,
leads to.
-/

namespace Chronicle.World

/-- What is known now of all but a latch and what is derived from it. -/
def knowledgeWithout (w : World) (t : Variable) : Valuation :=
  w.knowledge.without (t.name :: (w.graph.derivedDependentsOf t.name).map Variable.name)

/-- Fires a latch that is not yet known true and now holds. -/
def fire (t : Variable) : Action Bool := do
  let w ← get
  if w.current.peek t.name = some true then return false
  let s ← w.resolve (w.knowledgeWithout t)
  if !(← t.computes s) then return false
  modifyCurrent fun p => p.triggered w.graph t
  if t.isPersistent then modifyCurrent fun p => p.observed t.name true
  return true

/-- Examines latches in order; the answer is those that fired. -/
def fireAll : List Variable → Action (List Variable)
  | [] => return []
  | t :: rest => do
    let fired ← fire t
    let others ← fireAll rest
    return if fired then t :: others else others

/-- Reconciles later periods with every persistent latch among those that fired. -/
def reconcileFirings : List Variable → Action Unit
  | [] => pure ()
  | t :: rest => do
    if t.isPersistent && (← get).settings.reconcileWrites then reconcileFuture t
    reconcileFirings rest

def write (s : Symbol) (b : Bool) : Action Unit := do
  let w ← get
  let v ← w.graph.require s
  if !v.isMutable then throw (.notMutable v.name v.kind)
  let prior ← if w.settings.observeOnWrite then read s else w.peek s
  if !v.isReversible && prior != v.default && b == v.default then throw (.irreversible v.name)
  modifyCurrent fun p => p.modified w.graph v.name b
  if w.settings.observeOnWrite then modifyCurrent fun p => p.observed v.name b
  if !v.isReversible && w.settings.reconcileWrites then reconcileFuture v
  reconcileFirings (← fireAll (w.graph.triggersDependentOn v.name))

def writeAll : List (Symbol × Bool) → Action Unit
  | [] => pure ()
  | (s, b) :: rest => do
    write s b
    writeAll rest

end Chronicle.World
