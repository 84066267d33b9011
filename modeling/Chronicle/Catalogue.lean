import Chronicle.Datum
import Chronicle.Dial

/-!
# Catalogues

Definitions are made one after another, each under a label by which later ones can mention it.  A
dial places its bits among the variables and its label stands for all of them.  A definition
depends only on what is there before it, so a closure is complete when it is built.  Direct
dependencies that an entry names late are added when all definitions are made; they may be on what
comes after it, and leave closures as they are.
-/

namespace Chronicle

/-- What stands where a variable is expected. -/
inductive Operand
  | made (v : Variable)
  | datum (d : Datum)

/-- A label, or a loose value in its place. -/
inductive Mention
  | label (label : String)
  | datum (d : Datum)

namespace Operand

def made? : Operand → Option Variable
  | made v => some v
  | datum _ => none

end Operand

namespace Variable

/-- A mutable under a name that is not empty. -/
def makeMutable (serial : Nat) (name : String) (default reversible : Bool) :
    Except Error Variable :=
  if name = "" then .error .emptyName
  else .ok ⟨⟨name, serial⟩, .mutable default reversible, [], []⟩

/-- The operands as variables, none of which bears the name `name`. -/
def dependenciesOf (name : String) : List Operand → Except Error (List Variable)
  | [] => .ok []
  | .datum d :: _ => .error (.strayDependency d.literal name)
  | .made v :: rest => do
    if v.name = name then throw (.selfDependency name)
    return v :: (← dependenciesOf name rest)

/-- Keeps the first of two symbols of one name. -/
def addSymbol (l : List Symbol) (s : Symbol) : List Symbol :=
  if l.any fun t => t.name == s.name then l else l ++ [s]

/-- The variables and all that they depend on, each name once. -/
def closureOf (dependencies : List Variable) : List Symbol :=
  (dependencies.map symbol ++ dependencies.flatMap closure).foldl addSymbol []

/-- A derived or triggered variable; it does not depend on its own name. -/
def makeDependent (serial : Nat) (name : String) (operands : List Operand) (role : Role) :
    Except Error Variable := do
  if name = "" then throw .emptyName
  let dependencies ← dependenciesOf name operands
  let v : Variable := ⟨⟨name, serial⟩, role, dependencies.map symbol, closureOf dependencies⟩
  if v.dependsOn name then throw (.selfDependency name)
  return v

end Variable

inductive Definition
  | mutable (name : String) (default reversible : Bool)
  | derived (name : String) (dependencies : List Mention) (rule : Rule)
  | triggered (name : String) (dependencies : List Mention) (rule : Rule) (persistent : Bool)
  | dial (name : String) (start max : Int)

def Definition.name : Definition → String
  | mutable name .. => name
  | derived name .. => name
  | triggered name .. => name
  | dial name .. => name

/-- The symbol of the variable that a definition makes; a dial has none of its own. -/
def Definition.symbol? (serial : Nat) : Definition → Option Symbol
  | dial .. => none
  | d => some ⟨d.name, serial⟩

/-- A definition under its label, with the direct dependencies that it names late. -/
structure Entry where
  label : String
  definition : Definition
  late : List Mention

/-- The variables made so far, in order of definition, and the symbols and dials that labels stand
for: the last ones made under them. -/
structure Catalogue where
  made : List Variable
  symbols : Table Symbol
  dials : Table Dial
  /-- Serial number of the next variable. -/
  next : Nat

namespace Catalogue

def empty : Catalogue := ⟨[], .empty, .empty, 0⟩

def variableOf? (c : Catalogue) (label : String) : Option Variable :=
  (c.symbols.get? label).bind fun s => c.made.find? fun v => v.symbol == s

def dial? (c : Catalogue) (label : String) : Option Dial := c.dials.get? label

/-- What a mention stands for in a list: the bits of a dial, a variable, or the loose value
itself. -/
def resolve (c : Catalogue) : Mention → Except Error (List Operand)
  | .datum d => .ok [.datum d]
  | .label label =>
    match c.dial? label with
    | some d => .ok ((c.made.filter fun v => d.bits.contains v.symbol).map .made)
    | none =>
      match c.variableOf? label with
      | some v => .ok [.made v]
      | none => .error (.unknownName label)

def resolveOne (c : Catalogue) : Mention → Except Error Operand
  | .datum d => .ok (.datum d)
  | .label label =>
    match c.variableOf? label with
    | some v => .ok (.made v)
    | none => .error (.unknownName label)

def resolveAll (c : Catalogue) : List Mention → Except Error (List Operand)
  | [] => .ok []
  | m :: ms => do return (← c.resolve m) ++ (← c.resolveAll ms)

def place (c : Catalogue) (label : String) (v : Variable) : Catalogue :=
  { c with made := c.made ++ [v], symbols := c.symbols.set label v.symbol, next := c.next + 1 }

def bitLabel (label : String) (i : Nat) : String := label ++ "_bit" ++ toString i

/-- Adds the bits of a dial from the lowest up, each at its digit of the start value. -/
def placeBits (c : Catalogue) (label : String) (d : Dial) : List Nat → Except Error Catalogue
  | [] => .ok c
  | i :: is => do
    let bit ← Variable.makeMutable c.next (d.bitName i) (d.start.testBit i) true
    placeBits (c.place (bitLabel label i) bit) label d is

def placeDial (c : Catalogue) (label : String) (d : Dial) : Except Error Catalogue :=
  ({ c with dials := c.dials.set label d } : Catalogue).placeBits label d (List.range d.width)

def define (c : Catalogue) (label : String) : Definition → Except Error Catalogue
  | .mutable name default reversible => do
    return c.place label (← Variable.makeMutable c.next name default reversible)
  | .derived name mentions rule => do
    let operands ← c.resolveAll mentions
    return c.place label (← Variable.makeDependent c.next name operands (.derived rule))
  | .triggered name mentions rule persistent => do
    let operands ← c.resolveAll mentions
    let role := Role.triggered rule persistent
    return c.place label (← Variable.makeDependent c.next name operands role)
  | .dial name start max => do c.placeDial label (← Dial.make name start max c.next)

/-- Makes the definitions of entries in order; the first bad one decides.  With the catalogue come
the symbols of the variables made and what each names late. -/
def makeAll (c : Catalogue) : List Entry → Except Error (Catalogue × List (Symbol × List Mention))
  | [] => .ok (c, [])
  | e :: rest => do
    let (made, late) ← (← c.define e.label e.definition).makeAll rest
    return (made, (e.definition.symbol? c.next).toList.map (·, e.late) ++ late)

/-- Appends to the direct dependencies of a variable. -/
def extend (c : Catalogue) (s : Symbol) (mentions : List Mention) : Except Error Catalogue := do
  let late := ((← c.resolveAll mentions).filterMap Operand.made?).map Variable.symbol
  let extended (v : Variable) : Variable := { v with dependencies := v.dependencies ++ late }
  return { c with made := c.made.map fun v => if v.symbol = s then extended v else v }

def extendAll (c : Catalogue) : List (Symbol × List Mention) → Except Error Catalogue
  | [] => .ok c
  | (s, mentions) :: rest => do (← c.extend s mentions).extendAll rest

/-- Makes the definitions of entries, and then adds what they name late. -/
def defineAll (c : Catalogue) (entries : List Entry) : Except Error Catalogue := do
  let (made, late) ← c.makeAll entries
  made.extendAll late

def all (c : Catalogue) : List Operand := c.made.map .made

end Catalogue

end Chronicle
