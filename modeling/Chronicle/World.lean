import Chronicle.World.Arrival
import Chronicle.World.Report
import Chronicle.World.Timeline
import Chronicle.Period.Access

/-!
# Worlds

A world is a graph with a timeline and a time that is now.  Reads ask the current period and then
solve for what it does not know; writes change the current period and fire the latches that now
hold; a journey to a later time joins what leaves the current period with what the later one
started from. An irreversible write and a persistent latch cannot wait for a journey: they are
reconciled with every later period at once.
-/

namespace Chronicle

structure Settings where
  startTime : Int
  /-- A write observes the value before and after it. -/
  observeOnWrite : Bool
  /-- Irrevocable changes are reconciled with later periods at once. -/
  reconcileWrites : Bool
  maxLogEntries : Nat
  deriving DecidableEq, Repr

namespace Settings

def standard : Settings := ⟨0, true, true, 1000⟩

/-- Assigns a setting of a running world by name.  Only the two switches matter from then on. -/
def assign (s : Settings) (field : String) (d : Datum) : Settings :=
  if field = "observe_on_write" then { s with observeOnWrite := d.truthy }
  else if field = "reconcile_irreversible_writes" then { s with reconcileWrites := d.truthy }
  else s

end Settings

structure World where
  graph : Graph
  settings : Settings
  timeline : Timeline
  now : Int
  travelLog : Log TravelReport
  reconciliationLog : Log ReconciliationReport

namespace World

/-- An operation on a world that may be refused; the world it leaves behind stays. -/
abbrev Action := ExceptT Error (StateM World)

/-- A world that begins at a time, or else where the settings say. -/
def start (g : Graph) (settings : Settings) (time? : Option Int) : World :=
  let time := time?.getD settings.startTime
  { graph := g
    settings := settings
    timeline := ⟨[.blank time]⟩
    now := time
    travelLog := .empty settings.maxLogEntries
    reconciliationLog := .empty settings.maxLogEntries }

/-- A world whose logs have a capacity that a machine word has room for. -/
def create (g : Graph) (settings : Settings) (time? : Option Int) : Except Error World :=
  if settings.maxLogEntries < Nat.pow 2 63 then .ok (start g settings time?)
  else .error .excessCapacity

def current (w : World) : Period := w.timeline.period w.now

def setPeriod (w : World) (p : Period) : World := { w with timeline := w.timeline.put p }

def knowledge (w : World) : Valuation := w.current.currentState w.graph

/-- The state of the world that the knowledge leads to. -/
def resolve (w : World) (known : Valuation) : Except Error Valuation := do
  match ← w.graph.solve known with
  | some s => return s
  | none => throw (.noCompletion w.now (w.graph.describe known))

/-- The value of a variable now, without recording an observation. -/
def peek (w : World) (s : Symbol) : Except Error Bool := do
  let v ← w.graph.require s
  match w.current.peek v.name with
  | some b => return b
  | none => (← w.resolve w.knowledge).read v.name

def modifyCurrent (f : Period → Period) : Action Unit :=
  modify fun w => w.setPeriod (f w.current)

def within {α : Type} (time : Int) (act : Period.Action α) : Action α := do
  let w ← get
  let (result, p) := act.run (w.timeline.period time)
  set (w.setPeriod p)
  result

/-- The value of a variable now, recorded as an observation. -/
def read (s : Symbol) : Action Bool := do
  let b ← (← get).peek s
  modifyCurrent fun p => p.observed s.name b
  return b

def configure (f : Settings → Settings) : Action Unit :=
  modify fun w => { w with settings := f w.settings }

end World

end Chronicle
