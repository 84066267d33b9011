import Chronicle.Symbol
import Chronicle.Text.Quoted

/-!
# What can go wrong

Every refusal is one cause with the data that names the culprit; `message` words it.  The causes
fall into four groups: declarations that make no graph, reads and writes that are not allowed,
knowledge that fits no state of the world, and layouts that make no level.  A refused journey is
not among them: it is an answer.
-/

namespace Chronicle

inductive Error
  -- declarations
  | emptyName
  | strayDependency (literal name : String)
  | selfDependency (name : String)
  | strayVariable (literal : String)
  | duplicateName (name : String)
  | undeclaredDependency (name dependency : String)
  | undeclaredBit (bit dial : String)
  | cycle (names : List String)
  | negativeMax (name : String)
  | startOutside (name : String) (start max : Int)
  | noWeights (name : String)
  | emptyTotal
  | infiniteTotal
  | excessWeight
  | excessCapacity
  -- reads and writes
  | unknownName (name : String)
  | foreign (name : String)
  | noValue (name : String)
  | valueOutside (name : String) (value : Int) (max : Nat)
  | notMutable (name : String) (kind : Kind)
  | irreversible (name : String)
  | incomparable
  | unknownMode (word : String)
  -- knowledge
  | contradictory (name description : String)
  | noCompletion (time : Int) (description : String)
  | startFixed (time : Int) (name : String) (start current : Option Bool)
  | unexplained (time : Int) (name : String)
  | unvisited (time : Int)
  -- layouts
  | emptyBooth
  | noStart
  | unknownDirection (word : String)
  deriving DecidableEq, Repr

namespace Text

def truthWord (b : Bool) : String := if b then "True" else "False"

def truthWord? : Option Bool → String
  | none => "None"
  | some b => truthWord b

end Text

namespace Error

open Text (truthWord?)
open Text.Quoted (encode)

def message : Error → String
  | emptyName => "Variable name must be non-empty"
  | strayDependency literal name =>
    "Dependency " ++ literal ++ " of " ++ encode name ++ " is not a Variable"
  | selfDependency name => "Variable " ++ encode name ++ " depends on itself"
  | strayVariable literal => literal ++ " is not a Variable"
  | duplicateName name => "Duplicate variable name: " ++ encode name
  | undeclaredDependency name dependency =>
    encode name ++ " depends on undeclared variable " ++ encode dependency
  | undeclaredBit bit dial =>
    "Bit " ++ encode bit ++ " of numeric proxy " ++ encode dial ++ " is not declared"
  | cycle names => "Dependency cycle among: " ++ ", ".intercalate names
  | negativeMax name => encode name ++ ": max_value must be non-negative"
  | startOutside name start max =>
    encode name ++ ": starting value " ++ toString start ++ " outside [0, " ++ toString max ++ "]"
  | noWeights name => encode name ++ ": at least one weight is required"
  | emptyTotal => "Total of weights must be greater than zero"
  | infiniteTotal => "Total of weights must be finite"
  | excessWeight => "int too large to convert to float"
  | excessCapacity => "Python int too large to convert to C ssize_t"
  | unknownName name => "Unknown variable: " ++ encode name
  | foreign name => "Variable " ++ encode name ++ " is not part of this world"
  | noValue name => encode name ++ " has no value yet; is it a declared dependency?"
  | valueOutside name value max =>
    encode name ++ ": value " ++ toString value ++ " outside [0, " ++ toString max ++ "]"
  | notMutable name kind => encode name ++ " is " ++ kind.word ++ ", not mutable"
  | irreversible name => encode name ++ " is not reversible and has already left its default"
  | incomparable => "a variable has no place in an order of plain values"
  | unknownMode word => encode word ++ " is not a valid TriggerMode"
  | contradictory name description =>
    "Cannot read " ++ encode name ++ ": " ++ description ++ " is contradictory"
  | noCompletion time description =>
    "internal error: t=" ++ toString time ++ ": knowledge " ++ description ++
      " has no consistent completion"
  | startFixed time name start current =>
    "internal error: t=" ++ toString time ++ ": start state of " ++ encode name ++
      " is already fixed (start=" ++ truthWord? start ++ ", current=" ++ truthWord? current ++ ")"
  | unexplained time name =>
    "internal error: t=" ++ toString time ++ ": cannot patch " ++ encode name ++
      " into the start state to explain a trigger firing"
  | unvisited time => "there is no period at t=" ++ toString time
  | emptyBooth => "A time travel booth needs at least one allowed time"
  | noStart => "Level has no starting room"
  | unknownDirection word => encode word ++ " is not a valid Direction"

end Error

end Chronicle
