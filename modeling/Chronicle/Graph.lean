import Chronicle.Catalogue

/-!
# Graphs

A graph is a list of variables with distinct names, closed under direct dependency, together with
dials whose bits are among them.  It fixes one evaluation order for the derived and triggered
variables: in rounds, each taking all variables whose direct dependencies are placed, in the order
of declaration.  Names that no round can place lie on a cycle or depend on one.
-/

namespace Chronicle

structure Graph where
  declared : List Variable
  dials : List Dial
  /-- Derived and triggered variables, each after what it depends on. -/
  order : List Variable

namespace Graph

/-- The operands as variables with distinct names, which also differ from the names seen. -/
def declareFrom (seen : List String) : List Operand → Except Error (List Variable)
  | [] => .ok []
  | .datum d :: _ => .error (.strayVariable d.literal)
  | .made v :: rest => do
    if v.name ∈ seen then throw (.duplicateName v.name)
    return v :: (← declareFrom (v.name :: seen) rest)

def findIn (vs : List Variable) (name : String) : Option Variable :=
  vs.find? fun v => v.name == name

/-- The very symbol is among the variables, and not only its name. -/
def declares (vs : List Variable) (s : Symbol) : Bool :=
  match findIn vs s.name with
  | some v => v.symbol == s
  | none => false

def checkDependencies (vs : List Variable) : List Variable → Except Error Unit
  | [] => .ok ()
  | v :: rest =>
    match v.dependencies.find? fun s => !declares vs s with
    | some s => .error (.undeclaredDependency v.name s.name)
    | none => checkDependencies vs rest

def checkDials (vs : List Variable) : List Dial → Except Error Unit
  | [] => .ok ()
  | d :: rest =>
    match d.bits.find? fun s => !declares vs s with
    | some s => .error (.undeclaredBit s.name d.name)
    | none => checkDials vs rest

def isReady (placed : List String) (v : Variable) : Bool :=
  v.dependencies.all fun s => placed.contains s.name

/-- At most `rounds` rounds of placing what is ready.  A round places something or ends in an
error, so as many rounds as there are pending variables suffice. -/
def layers (rounds : Nat) (placed : List String) (pending : List Variable) :
    Except Error (List Variable) :=
  match rounds with
  | 0 => .ok []
  | rounds + 1 =>
    if pending.isEmpty then .ok [] else
      let ready := pending.filter (isReady placed)
      if ready.isEmpty then .error (.cycle (pending.map Variable.name)) else do
        let rest ← layers rounds (placed ++ ready.map Variable.name)
          (pending.filter fun v => !isReady placed v)
        return ready ++ rest

def evaluationOrder (vs : List Variable) : Except Error (List Variable) :=
  let pending := vs.filter fun v => !v.isMutable
  layers pending.length ((vs.filter Variable.isMutable).map Variable.name) pending

def build (declared : List Operand) (dials : List Dial) : Except Error Graph := do
  let vs ← declareFrom [] declared
  checkDependencies vs vs
  checkDials vs dials
  return ⟨vs, dials, ← evaluationOrder vs⟩

variable (g : Graph)

def find? (name : String) : Option Variable := findIn g.declared name

def size : Nat := g.declared.length

def names : List String := g.declared.map Variable.name

def mutables : List Variable := g.declared.filter Variable.isMutable

def deriveds : List Variable := g.declared.filter Variable.isDerived

def triggereds : List Variable := g.declared.filter Variable.isTriggered

def get (name : String) : Except Error Variable :=
  match g.find? name with
  | some v => .ok v
  | none => .error (.unknownName name)

/-- The graph holds this very symbol. -/
def contains (s : Symbol) : Bool := declares g.declared s

/-- The variable of a symbol that the graph holds. -/
def require (s : Symbol) : Except Error Variable :=
  match g.find? s.name with
  | some v => if v.symbol = s then .ok v else .error (.foreign s.name)
  | none => .error (.foreign s.name)

/-- Derived and triggered variables that depend on a name, in evaluation order. -/
def dependentsOf (name : String) : List Variable :=
  g.order.filter fun d => d.dependsOn name

def derivedDependentsOf (name : String) : List Variable :=
  (g.dependentsOf name).filter Variable.isDerived

def triggersDependentOn (name : String) : List Variable :=
  (g.dependentsOf name).filter Variable.isTriggered

/-- The mutable and triggered variables that a variable reads in the end. -/
def rootsOf (v : Variable) : List Variable :=
  g.declared.filter fun w => v.dependsOn w.name && !w.isDerived

/-- The variable itself and all that it depends on. -/
def relevantTo (v : Variable) : List Variable :=
  g.declared.filter fun w => w.symbol == v.symbol || v.dependsOn w.name

/-- What is known of a variable may leave its period: neither it nor anything that it depends on
is a latch whose firing stays behind. -/
def carries (v : Variable) : Bool :=
  !v.isTransient && g.declared.all fun w => !(v.dependsOn w.name && w.isTransient)

end Graph

namespace Operand

def same : Operand → Operand → Bool
  | .made v, .made w => v.name == w.name
  | _, _ => false

/-- How two variables stand in the order of their names. -/
def compare : Operand → Operand → Except Error Ordering
  | .made v, .made w => .ok (compareOfLessAndEq v.name w.name)
  | _, _ => .error .incomparable

def isIn (g : Graph) : Operand → Bool
  | .made v => g.contains v.symbol
  | .datum _ => false

end Operand

end Chronicle
