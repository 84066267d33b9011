import Chronicle.World

/-!
# Reconciliation with later periods

After an irrevocable change the current period is reconciled with every later one that was
visited. What the history pins beyond the joint knowledge is fixed into the start of both, where
that is still open.  A failure leaves the change in place: it is reported, and a later journey
meets the same contradiction.
-/

namespace Chronicle.World

def conflictReason (names : List String) : String :=
  "direct contradiction on " ++ Text.Quoted.encodeList names

def noHistoryReason : String := "no consistent history"

def reportReconciliation (r : ReconciliationReport) : Action Unit :=
  modify fun w => { w with reconciliationLog := w.reconciliationLog.push r }

def overrideEach : List (String × Bool) → Period → Except Error Period
  | [], p => .ok p
  | (name, b) :: rest, p => do overrideEach rest (← p.overrideStart name b)

def reconcileWith (cause : Variable) (time : Int) : Action Unit := do
  let w ← get
  let g := w.graph
  let source := w.current
  let target := w.timeline.period time
  let report (success : Bool) (sourceOverrides targetOverrides : Valuation)
      (reason : Option String) : Action Unit :=
    reportReconciliation
      ⟨cause.name, w.now, time, success, sourceOverrides, targetOverrides, reason⟩
  let known := source.carriedState g
  let started := target.startState g
  match g.merge known started with
  | none => report false .empty .empty (some (conflictReason (g.conflicts known started)))
  | some merged =>
    match ← Arrival.find g merged target with
    | none => report false .empty .empty (some noHistoryReason)
    | some arrival =>
      let corrections := arrival.corrections merged
      let sourceOverrides := corrections.filter source.canOverride
      let targetOverrides := Arrival.startOverrides g target corrections
      let source ← overrideEach sourceOverrides.entries source
      modify fun w => w.setPeriod source
      let target ← overrideEach targetOverrides.entries target
      modify fun w => w.setPeriod target
      report true sourceOverrides targetOverrides none

def reconcileWithAll (cause : Variable) : List Int → Action Unit
  | [] => pure ()
  | time :: rest => do
    reconcileWith cause time
    reconcileWithAll cause rest

/-- Reconciles the current period with every later one, in order of time. -/
def reconcileFuture (cause : Variable) : Action Unit := do
  let w ← get
  reconcileWithAll cause (w.timeline.times.filter fun time => w.now < time)

end Chronicle.World
