import Chronicle.Knowledge

/-!
# Periods

A period is one tick of time with a record of each variable: what it was when the period began,
what it is now, and whether either may have gone stale.  A latch that fires leaves an antecedent:
what was known of its closure at that moment and what was not.

Observing fixes the start value unless the variable may have changed since the start; modifying
makes the current value of every derived dependent unknown, and flags it as changed unless all its
roots may still be where they started.  A start value that was never fixed can be overridden once.
-/

namespace Chronicle

/-- What one period knows of one variable. -/
structure Record where
  modifiedSinceStart : Bool
  modifiedSinceObserved : Bool
  startValue : Option Bool
  startOverride : Option Bool
  currentValue : Option Bool
  observedValue : Option Bool
  deriving DecidableEq, Repr

namespace Record

def blank : Record := ⟨false, false, none, none, none, none⟩

instance : Inhabited Record := ⟨blank⟩

/-- The override, or else what was observed before any modification. -/
def knownStart (r : Record) : Option Bool := r.startOverride.or r.startValue

/-- The best known value now: the start value serves as long as nothing may have changed it. -/
def peek (r : Record) : Option Bool :=
  r.currentValue.or (if r.modifiedSinceStart then none else r.knownStart)

/-- What leaves the period: a value that is not stale since it was last observed. -/
def outgoing (r : Record) : Option Bool :=
  match r.currentValue with
  | some b => if r.modifiedSinceObserved then none else some b
  | none => if r.modifiedSinceStart then none else r.knownStart

/-- Neither the start nor the current value is known. -/
def isOpen (r : Record) : Bool := r.knownStart.isNone && r.currentValue.isNone

def observed (r : Record) (b : Bool) : Record :=
  { r with
    observedValue := some b
    currentValue := some b
    startValue := if r.modifiedSinceStart then r.startValue else some b
    modifiedSinceObserved := false }

def modified (r : Record) (b : Bool) : Record :=
  { r with currentValue := some b, modifiedSinceObserved := true, modifiedSinceStart := true }

/-- Something it is derived from was modified. -/
def unsettled (r : Record) (mayEqualStart : Bool) : Record :=
  { r with
    currentValue := none
    modifiedSinceObserved := true
    modifiedSinceStart := !mayEqualStart }

def letter : Option Bool → String
  | none => "-"
  | some b => if b then "T" else "F"

/-- Six letters: the two flags, then start, override, current and observed value. -/
def code (r : Record) : String :=
  (if r.modifiedSinceStart then "S" else "s") ++ (if r.modifiedSinceObserved then "O" else "o") ++
    letter r.startValue ++ letter r.startOverride ++ letter r.currentValue ++ letter r.observedValue

end Record

/-- What was known of the closure of a latch when it fired. -/
structure Antecedent where
  trigger : String
  recorded : Valuation
  unrecorded : List String
  deriving DecidableEq

structure Period where
  time : Int
  records : Table Record
  /-- By the name of the latch, in the order of first firings. -/
  antecedents : Table Antecedent
  deriving DecidableEq

namespace Period

def blank (time : Int) : Period := ⟨time, .empty, .empty⟩

instance : Inhabited Period := ⟨blank 0⟩

def record (p : Period) (name : String) : Record := (p.records.get? name).getD .blank

def setRecord (p : Period) (name : String) (r : Record) : Period :=
  { p with records := p.records.set name r }

theorem record_setRecord (p : Period) (name other : String) (r : Record) :
    (p.setRecord name r).record other = if name = other then r else p.record other := by
  unfold record setRecord
  rw [Table.get?_set]
  split <;> rfl

def peek (p : Period) (name : String) : Option Bool := (p.record name).peek

def antecedentList (p : Period) : List Antecedent := p.antecedents.entries.map Prod.snd

/-- The values that a view of the records gives, in order of declaration. -/
def collect (g : Graph) (view : Variable → Option Bool) : Valuation :=
  .ofList (g.declared.filterMap fun v => (view v).map (v.name, ·))

def currentState (g : Graph) (p : Period) : Valuation := collect g fun v => p.peek v.name

/-- All that was fixed at the start. -/
def startState (g : Graph) (p : Period) : Valuation :=
  collect g fun v => (p.record v.name).knownStart

/-- All that leaves the period.  What rests on a transient latch stays behind. -/
def endState (g : Graph) (p : Period) : Valuation :=
  collect g fun v => if g.carries v then (p.record v.name).outgoing else none

/-- All that is known now and may leave the period, stale or not. -/
def carriedState (g : Graph) (p : Period) : Valuation :=
  collect g fun v => if g.carries v then p.peek v.name else none

def observed (p : Period) (name : String) (b : Bool) : Period :=
  p.setRecord name ((p.record name).observed b)

/-- The value that a root is taken to have started from. -/
def assumedStart (p : Period) (root : Variable) : Option Bool :=
  (p.record root.name).knownStart.or (if root.isMutable then some root.default else none)

/-- Every root of a derived variable may still be where it started. -/
def mayEqualStart (g : Graph) (p : Period) (v : Variable) : Bool :=
  (g.rootsOf v).all fun root =>
    match p.assumedStart root, p.peek root.name with
    | none, _ => false
    | some _, none => true
    | some start, some current => current == start

/-- Forgets the current value of a derived variable. -/
def unsettle (g : Graph) (p : Period) (v : Variable) : Period :=
  p.setRecord v.name ((p.record v.name).unsettled (p.mayEqualStart g v))

def modified (g : Graph) (p : Period) (name : String) (b : Bool) : Period :=
  (g.derivedDependentsOf name).foldl (unsettle g)
    (p.setRecord name ((p.record name).modified b))

/-- What is known now of what a latch depends on. -/
def antecedentOf (g : Graph) (p : Period) (trigger : Variable) : Antecedent :=
  let names := (g.declared.filter fun v => trigger.dependsOn v.name).map Variable.name
  { trigger := trigger.name
    recorded := .ofList (names.filterMap fun name => (p.peek name).map (name, ·))
    unrecorded := names.filter fun name => (p.peek name).isNone }

def recordAntecedent (g : Graph) (p : Period) (trigger : Variable) : Period :=
  { p with antecedents := p.antecedents.set trigger.name (p.antecedentOf g trigger) }

/-- A latch fires: its antecedent is kept, and it becomes true. -/
def triggered (g : Graph) (p : Period) (trigger : Variable) : Period :=
  (p.recordAntecedent g trigger).modified g trigger.name true

def canOverride (p : Period) (name : String) : Bool := (p.record name).isOpen

def overrideStart (p : Period) (name : String) (b : Bool) : Except Error Period :=
  let r := p.record name
  if r.isOpen then .ok (p.setRecord name { r with startOverride := some b })
  else .error (.startFixed p.time name r.knownStart r.currentValue)

def literal (p : Period) : String := "TimePeriod(time=" ++ toString p.time ++ ")"

end Period

end Chronicle
