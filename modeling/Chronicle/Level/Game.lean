import Chronicle.Level

/-!
# Games

A player stands in one room of a level, walks through open passages and uses the fixtures of the
room.
-/

namespace Chronicle

structure Game where
  level : Level
  /-- Number of the player's room. -/
  room : Nat

namespace Game

/-- A move that may be refused; the game it leaves behind stays. -/
abbrev Action := ExceptT Error (StateM Game)

def start (l : Level) : Except Error Game := do return ⟨l, ← l.startRoom⟩

def world (g : Game) : World := g.level.world

def currentRoom? (g : Game) : Option Room := g.level.room? g.room

def atGoal (g : Game) : Bool := g.currentRoom?.any Room.isGoal

def onWorld {α : Type} (act : World.Action α) : Action α := do
  let g ← get
  let (result, w) := act.run g.world
  set { g with level := { g.level with world := w } }
  result

/-- A passage without a guard is open; a guard is observed. -/
def isOpen (p : Passage) : Action Bool :=
  match p.guard? with
  | none => return true
  | some guard => onWorld (World.read guard)

def move (d : Direction) : Action Bool := do
  match (← get).currentRoom?.bind fun r => r.passage? d with
  | none => return false
  | some p =>
    if ← isOpen p then
      modify fun g => { g with room := p.destination }
      return true
    else return false

/-- A lever can be used unless that would undo an irreversible change. -/
def canToggle (w : World) (v : Variable) : Except Error Bool := do
  if v.isReversible then return true
  return (← w.peek v.symbol) == v.default

/-- Writes the opposite of what the variable reads. -/
def toggle (v : Variable) : World.Action Bool := do
  if !(← canToggle (← get) v) then return false
  let b ← World.read v.symbol
  World.write v.symbol !b
  return true

def enter (b : Booth) : World.Action Bool := do
  World.travel (b.nextTime (← get).now) false

def operate : Fixture → World.Action Bool
  | .toggle v => toggle v
  | .booth b => enter b

/-- Uses a fixture of a room; from elsewhere it cannot be used. -/
def use (room fixture : Nat) : Action Bool := do
  let g ← get
  if g.room ≠ room then return false
  match g.currentRoom?.bind fun r => r.fixtures[fixture]? with
  | none => return false
  | some f => onWorld (operate f)

end Game

end Chronicle
