import Chronicle.Search

/-!
# Knowledge

What is known of a graph's variables at some point is a valuation whose names the graph declares.
Symbols are checked when they first come in; from then on the name stands for the variable.
-/

namespace Chronicle

namespace Graph

variable (g : Graph)

/-- Adds values to what is known.  A symbol whose name is there already is not checked again. -/
def assign (p : Valuation) : List (Symbol × Bool) → Except Error Valuation
  | [] => .ok p
  | (s, b) :: rest => do
    if !p.contains s.name then
      let _ ← g.require s
    assign (p.set s.name b) rest

def ordered (p : Valuation) : List (String × Bool) :=
  g.names.filterMap fun name => (p.get? name).map (name, ·)

/-- The names that two states of knowledge give different values. -/
def conflicts (p q : Valuation) : List String :=
  g.names.filter fun name =>
    match p.get? name, q.get? name with
    | some a, some b => a != b
    | _, _ => false

/-- All that either knows, unless they contradict each other directly. -/
def merge (p q : Valuation) : Option Valuation :=
  if (g.conflicts p q).isEmpty then some (p.update q.entries) else none

/-- Names and values between braces, in order of declaration. -/
def describe (p : Valuation) : String :=
  let pairs := (g.ordered p).map fun e => e.1 ++ "=" ++ Text.truthWord e.2
  "\x7b" ++ ", ".intercalate pairs ++ "\x7d"

def knowledgeLiteral (p : Valuation) : String := "PartialState(" ++ g.describe p ++ ")"

/-- The known value of a name, or else its value in the completion by defaults. -/
def concreteValue (p : Valuation) (name : String) : Except Error Bool :=
  match p.get? name with
  | some b => .ok b
  | none => do
    match ← g.complete? .latched p with
    | some s => s.read name
    | none => throw (.contradictory name (g.describe p))

def ruleValue (p : Valuation) (v : Variable) : Except Error (Option Bool) := do
  match v.rule?, ← g.complete? .latched p with
  | some rule, some s => return some (← rule s)
  | _, _ => return none

end Graph

/-- The pairs with each name once: of two with one name the first gives the symbol and the last
the value. -/
def distinctPairs {α : Type} (pairs : List (Symbol × α)) : List (Symbol × α) :=
  let add (t : Table (Symbol × α)) (e : Symbol × α) : Table (Symbol × α) :=
    t.set e.1.name (((t.get? e.1.name).map Prod.fst).getD e.1, e.2)
  (pairs.foldl add .empty).entries.map Prod.snd

namespace Valuation

/-- What is known here and not there. -/
def flipsFrom (p base : Valuation) : Valuation := p.filter fun name => !base.contains name

def without (p : Valuation) (names : List String) : Valuation :=
  p.filter fun name => !names.contains name

def restrictedTo (p : Valuation) (names : List String) : Valuation :=
  p.filter fun name => names.contains name

def literal (s : Valuation) : String :=
  let pairs := s.entries.map fun e => e.1 ++ "=" ++ Text.truthWord e.2
  "ConcreteState(" ++ ", ".intercalate pairs ++ ")"

end Valuation

/-- Knowledge of one of several graphs. -/
structure Notes where
  owner : Nat
  known : Valuation
  deriving DecidableEq

namespace Notes

/-- Both tell the same of one graph, in any order. -/
def same (a b : Notes) : Bool := a.owner == b.owner && a.known.same b.known

end Notes

end Chronicle
