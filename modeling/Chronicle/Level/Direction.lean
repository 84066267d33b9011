import Chronicle.Error

/-!
# Directions

The four ways out of a room, with their words.  A way back has the opposite direction.
-/

namespace Chronicle

inductive Direction
  | north
  | south
  | east
  | west
  deriving DecidableEq, Repr

namespace Direction

def opposite : Direction → Direction
  | north => south
  | south => north
  | east => west
  | west => east

def word : Direction → String
  | north => "north"
  | south => "south"
  | east => "east"
  | west => "west"

def all : List Direction := [north, south, east, west]

def ofWord (word : String) : Except Error Direction :=
  match all.find? fun d => d.word == word with
  | some d => .ok d
  | none => .error (.unknownDirection word)

theorem opposite_opposite (d : Direction) : d.opposite.opposite = d := by
  cases d <;> rfl

theorem ofWord_word (d : Direction) : ofWord d.word = .ok d := by
  cases d <;> rfl

end Direction

end Chronicle
