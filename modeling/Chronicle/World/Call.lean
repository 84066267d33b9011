import Chronicle.World.Travel

/-!
# Calls

The operations on a world as data, so that a history is a list of calls.  A call that is refused
may leave a trace, and the history goes on from there.
-/

namespace Chronicle

inductive Call
  | peek (s : Symbol)
  | read (s : Symbol)
  | write (s : Symbol) (b : Bool)
  | travel (time : Int)
  | canTravel (time : Int)
  | assign (field : String) (d : Datum)

namespace World

/-- Carries out a call.  A write and an assignment have no answer. -/
def perform : Call → Action (Option Bool)
  | .peek s => do return some (← (← get).peek s)
  | .read s => some <$> read s
  | .write s b => do
    write s b
    return none
  | .travel time => some <$> travel time false
  | .canTravel time => some <$> canTravel time
  | .assign field d => do
    configure fun settings => settings.assign field d
    return none

def answer (w : World) (c : Call) : Except Error (Option Bool) := ((perform c).run w).1

/-- The world that a call leaves behind, whether it was refused or not. -/
def next (w : World) (c : Call) : World := ((perform c).run w).2

def after (w : World) (calls : List Call) : World := calls.foldl next w

/-- The world comes from a fresh one over the graph by some history. -/
def Reachable (g : Graph) (w : World) : Prop :=
  ∃ settings time? calls, w = (start g settings time?).after calls

end World

end Chronicle
