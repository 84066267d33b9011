import Chronicle.Error
import Chronicle.Table

/-!
# Variables

A variable is a symbol with a role: a mutable has a default and may be irreversible; a derived one
has a rule for its value; a triggered one has a rule for its firing.  Its closure is fixed when it
is made, from what it depends on directly and the closures of that.
-/

namespace Chronicle

/-- Truth values of some variables. -/
abbrev Valuation := Table Bool

/-- Reads a valuation; it fails on a name that has no value there. -/
abbrev Rule := Valuation → Except Error Bool

inductive Role
  | mutable (default reversible : Bool)
  | derived (rule : Rule)
  | triggered (rule : Rule) (persistent : Bool)

structure Variable where
  symbol : Symbol
  role : Role
  /-- What it depends on directly. -/
  dependencies : List Symbol
  /-- What it depends on directly or through others, as of its making: one symbol per name. -/
  closure : List Symbol

namespace Valuation

def read (s : Valuation) (name : String) : Except Error Bool :=
  match s.get? name with
  | some b => .ok b
  | none => .error (.noValue name)

theorem read_eq_ok_iff {s : Valuation} {name : String} {b : Bool} :
    s.read name = .ok b ↔ s.get? name = some b := by
  unfold read
  cases s.get? name <;> simp

end Valuation

namespace Variable

def name (v : Variable) : String := v.symbol.name

def kind (v : Variable) : Kind :=
  match v.role with
  | .mutable .. => .mutable
  | .derived .. => .derived
  | .triggered .. => .triggered

def isMutable (v : Variable) : Bool := v.kind == .mutable

def isDerived (v : Variable) : Bool := v.kind == .derived

def isTriggered (v : Variable) : Bool := v.kind == .triggered

/-- The value assumed of a mutable of which nothing is known. -/
def default (v : Variable) : Bool :=
  match v.role with
  | .mutable default _ => default
  | _ => false

/-- An irreversible mutable can leave its default once. -/
def isReversible (v : Variable) : Bool :=
  match v.role with
  | .mutable _ reversible => reversible
  | _ => true

def isPersistent (v : Variable) : Bool :=
  match v.role with
  | .triggered _ persistent => persistent
  | _ => false

/-- A latch whose firing stays in the period in which it happens. -/
def isTransient (v : Variable) : Bool := v.isTriggered && !v.isPersistent

/-- What a derived or triggered variable computes from a valuation. -/
def rule? (v : Variable) : Option Rule :=
  match v.role with
  | .mutable .. => none
  | .derived rule => some rule
  | .triggered rule _ => some rule

/-- What the variable computes from a valuation; a mutable computes nothing and never holds. -/
def computes (v : Variable) (s : Valuation) : Except Error Bool :=
  match v.rule? with
  | some rule => rule s
  | none => .ok false

/-- A name that the closure holds. -/
def dependsOn (v : Variable) (name : String) : Bool :=
  v.closure.any fun s => s.name == name

def literal (v : Variable) : String :=
  let kind := match v.kind with
    | .mutable => "MutableVariable"
    | .derived => "DerivedVariable"
    | .triggered => "TriggeredVariable"
  kind ++ "(" ++ Text.Quoted.encode v.name ++ ")"

end Variable

end Chronicle
