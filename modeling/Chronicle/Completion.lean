import Chronicle.Graph

/-!
# Completions

A valuation of some variables is completed in one pass: unknown mutables take their defaults, then
every derived and triggered variable is settled in evaluation order, then the dials are checked.
A value that is already there is not replaced but compared, and the first comparison that fails is
the obstacle.  `IsModel` says the same at one stroke, without an order: it is what the pass has to
meet.
-/

namespace Chronicle

/-- How a recorded value of a latch is held against its rule.  A latch recorded true always stands
if `latched`, and only if it fires if `exact`; recorded false it must not fire in either mode. -/
inductive Mode
  | latched
  | exact
  deriving DecidableEq, Repr

namespace Mode

def word : Mode → String
  | latched => "latched"
  | exact => "exact"

def ofWord (word : String) : Except Error Mode :=
  if word = "latched" then .ok latched
  else if word = "exact" then .ok exact
  else .error (.unknownMode word)

/-- A latch may be recorded so while its rule says so. -/
def admits : Mode → (recorded fires : Bool) → Bool
  | latched, recorded, fires => recorded || !fires
  | exact, recorded, fires => recorded == fires

end Mode

/-- Why a valuation has no completion by defaults. -/
inductive Obstacle
  | derivation (name : String) (observed derived : Bool)
  | firing (name : String) (recorded fires : Bool)
  | latch (name : String)
  | overflow (dial : String) (value max : Nat)
  deriving DecidableEq, Repr

namespace Obstacle

open Text (truthWord)

def reason : Obstacle → String
  | derivation name observed derived =>
    name ++ " observed " ++ truthWord observed ++ ", derives " ++ truthWord derived
  | firing name recorded fires =>
    name ++ " recorded " ++ truthWord recorded ++ ", predicate " ++ truthWord fires
  | latch name => name ++ " recorded False but fires"
  | overflow dial value max => dial ++ " decodes to " ++ toString value ++ " > " ++ toString max

end Obstacle

/-- A pass that stops at an obstacle; a rule may fail within it. -/
abbrev Pass := ExceptT Obstacle (Except Error)

namespace Variable

/-- Gives a derived or triggered variable its value, or holds its rule against the one it has. -/
def settle (mode : Mode) (s : Valuation) (v : Variable) : Pass Valuation :=
  match v.role with
  | .mutable .. => pure s
  | .derived rule => do
    let computed ← (rule s : Except Error Bool)
    match s.get? v.name with
    | none => return s.set v.name computed
    | some observed =>
      if observed = computed then return s else throw (.derivation v.name observed computed)
  | .triggered rule _ => do
    let fires ← (rule s : Except Error Bool)
    match s.get? v.name with
    | none => return s.set v.name fires
    | some recorded =>
      if mode.admits recorded fires then return s
      else throw (if mode = .exact then .firing v.name recorded fires else .latch v.name)

end Variable

namespace Dial

def check (d : Dial) (s : Valuation) : Pass Unit := do
  let value ← (d.value s : Except Error Nat)
  if d.max < value then throw (.overflow d.name value d.max)

end Dial

namespace Graph

variable (g : Graph)

/-- Unknown mutables at their defaults, after what is known. -/
def fill (p : Valuation) : Valuation :=
  g.mutables.foldl (fun s m => if s.contains m.name then s else s.set m.name m.default) p

/-- The completion by defaults, or the first obstacle to it. -/
def complete (mode : Mode) (p : Valuation) : Except Error (Except Obstacle Valuation) :=
  ExceptT.run do
    let s ← g.order.foldlM (Variable.settle mode) (g.fill p)
    g.dials.forM (Dial.check · s)
    return s

def complete? (mode : Mode) (p : Valuation) : Except Error (Option Valuation) := do
  return (← g.complete mode p).toOption

def isConsistent (mode : Mode) (p : Valuation) : Except Error Bool := do
  return (← g.complete? mode p).isSome

/-- A total valuation `s` that extends `p` and meets every rule.  What `p` records of a latch is
held against its rule as the mode says. -/
structure IsModel (mode : Mode) (p s : Valuation) : Prop where
  total : ∀ name, (s.get? name).isSome ↔ name ∈ g.names
  extends_known : ∀ name b, p.get? name = some b → s.get? name = some b
  derived : ∀ v ∈ g.declared, ∀ rule, v.role = .derived rule →
    ∃ b, s.get? v.name = some b ∧ rule s = .ok b
  triggered : ∀ v ∈ g.declared, ∀ rule persistent, v.role = .triggered rule persistent →
    ∃ b fires, s.get? v.name = some b ∧ rule s = .ok fires ∧
      if (p.get? v.name).isSome then mode.admits b fires = true else b = fires
  in_range : ∀ d ∈ g.dials, ∃ n, d.value s = .ok n ∧ n ≤ d.max

/-- Rules see nothing outside the closure of their variable, and do not fail where all of it has a
value. -/
def IsLocal : Prop :=
  ∀ v ∈ g.declared, ∀ rule, v.rule? = some rule →
    (∀ s t : Valuation, (∀ name, v.dependsOn name → s.get? name = t.get? name) → rule s = rule t) ∧
    ∀ s : Valuation, (∀ name, v.dependsOn name → s.contains name) → ∃ b, rule s = .ok b

end Graph

end Chronicle
