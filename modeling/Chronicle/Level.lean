import Chronicle.Level.Booth
import Chronicle.Level.Direction
import Chronicle.World.Travel

/-!
# Levels

A level is a world with rooms laid out on it.  Rooms go by their number, for two may bear one
name; a room belongs to the level once it is placed.  Passages come in pairs, one in each
direction, and a guarded one is open while its guard reads true.  All that rooms and their
fixtures do to the world is to read, write and travel.
-/

namespace Chronicle

structure Passage where
  /-- Number of the room it leads to. -/
  destination : Nat
  direction : Direction
  guard? : Option Symbol
  deriving DecidableEq

inductive Fixture
  | toggle (v : Variable)
  | booth (b : Booth)

structure Room where
  name : String
  isStart : Bool
  isGoal : Bool
  fixtures : List Fixture
  passages : List Passage

namespace Room

def passage? (r : Room) (d : Direction) : Option Passage :=
  r.passages.find? fun p => p.direction == d

def literal (r : Room) : String := "Room(" ++ Text.Quoted.encode r.name ++ ")"

end Room

structure Level where
  world : World
  rooms : List Room
  /-- Numbers of the rooms that belong to the level, in the order in which they were placed. -/
  placed : List Nat

namespace Level

def room? (l : Level) (i : Nat) : Option Room := l.rooms[i]?

def place (l : Level) (i : Nat) : Level :=
  if l.placed.contains i then l else { l with placed := l.placed ++ [i] }

def addPassage (l : Level) (i : Nat) (p : Passage) : Level :=
  { l with rooms := l.rooms.modify i fun r => { r with passages := r.passages ++ [p] } }

/-- Connects two rooms both ways; the way back has the opposite direction and the same guard. -/
def connect (l : Level) (i j : Nat) (d : Direction) (guard? : Option Symbol) : Level :=
  (((l.place i).place j).addPassage i ⟨j, d, guard?⟩).addPassage j ⟨i, d.opposite, guard?⟩

/-- The first room placed that is marked as the start. -/
def startRoom (l : Level) : Except Error Nat :=
  match l.placed.find? fun i => (l.room? i).any Room.isStart with
  | some i => .ok i
  | none => .error .noStart

end Level

end Chronicle
