import Chronicle.World.Write

/-!
# Journeys

A journey to the present stays, one to the past always succeeds, and one to the future has to find
a history that fits both ends.  A dry run tells how the journey would end and changes nothing but
the log.
-/

namespace Chronicle.World

/-- Keeps the report; the answer is whether the journey succeeded. -/
def reportTravel (r : TravelReport) : Action Bool := do
  modify fun w => { w with travelLog := w.travelLog.push r }
  return r.succeeded

/-- Makes a time the present, visiting it if that is the first time. -/
def moveTo (time : Int) : Action Unit :=
  modify fun w => { w with timeline := w.timeline.visit time, now := time }

/-- Fixes the start values of an arrival at its destination.  Where one cannot be fixed, a
destination that was there before keeps those that were. -/
def arriveAt (time : Int) (arrival : Arrival) : Action Unit := do
  let w ← get
  let corrections := arrival.resolved.flipsFrom arrival.candidate
  let (outcome, patched) :=
    (Period.correctAll corrections.names arrival.overrides.entries).run (w.timeline.period time)
  match outcome with
  | .ok _ => set { w.setPeriod patched with now := time }
  | .error e =>
    if (w.timeline.at? time).isSome then set (w.setPeriod patched)
    throw e

/-- Moves to a time.  False means that the destination contradicts what is known; nothing has
changed then. -/
def travel (time : Int) (dryRun : Bool) : Action Bool := do
  let w ← get
  let report (verdict : Verdict) (conflicts : List String) (overrides : Valuation) : Action Bool :=
    reportTravel ⟨w.now, time, verdict, dryRun, conflicts, overrides⟩
  if time = w.now then report .stayed [] .empty
  else if time < w.now then do
    if !dryRun then moveTo time
    report .rewound [] .empty
  else
    let g := w.graph
    let destination := w.timeline.period time
    let left := w.current.endState g
    let started := destination.startState g
    match g.merge left started with
    | none => report .directContradiction (g.conflicts left started) .empty
    | some merged =>
      match ← Arrival.find g merged destination with
      | none => report .logicalContradiction [] .empty
      | some arrival =>
        if dryRun then report .arrived [] .empty
        else do
          arriveAt time arrival
          report .arrived [] arrival.overrides

def canTravel (time : Int) : Action Bool := travel time true

/-- Overrides start values of the period at a time, in order, each with the truth of the name's
last value.  The answer is these values as they were given.  It takes a visit to the time, unless
there is nothing to override. -/
def overrideStarts (time : Int) (overrides corrections : List (Symbol × Datum)) :
    Action (List (String × Datum)) := do
  let w ← get
  let pairs := distinctPairs overrides
  if pairs.isEmpty then return []
  if (w.timeline.at? time).isNone then throw (.unvisited time)
  let names := corrections.map fun e => e.1.name
  within time (Period.overrideAll w.graph names (pairs.map fun e => (e.1, e.2.truthy)))
  return pairs.map fun e => (e.1.name, e.2)

end Chronicle.World
