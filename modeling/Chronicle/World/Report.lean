import Chronicle.Variable

/-!
# Reports

Every journey that is asked for leaves a report, and so does every reconciliation with a later
period.  A log keeps the latest of them, up to its capacity.
-/

namespace Chronicle

/-- How a journey ended. -/
inductive Verdict
  | arrived
  | stayed
  | rewound
  | directContradiction
  | logicalContradiction
  deriving DecidableEq, Repr

namespace Verdict

def succeeded : Verdict → Bool
  | arrived | stayed | rewound => true
  | directContradiction | logicalContradiction => false

def word : Verdict → String
  | arrived => "arrived"
  | stayed => "stayed"
  | rewound => "rewound"
  | directContradiction => "direct_contradiction"
  | logicalContradiction => "logical_contradiction"

def all : List Verdict :=
  [arrived, stayed, rewound, directContradiction, logicalContradiction]

def ofWord? (word : String) : Option Verdict := all.find? fun v => v.word == word

end Verdict

structure TravelReport where
  origin : Int
  destination : Int
  verdict : Verdict
  dryRun : Bool
  /-- What the two ends contradict each other on. -/
  conflicts : List String
  /-- The start values that were fixed at the destination. -/
  overrides : Valuation
  deriving DecidableEq

def TravelReport.succeeded (r : TravelReport) : Bool := r.verdict.succeeded

structure ReconciliationReport where
  /-- The irreversible variable that was written, or the persistent latch that fired. -/
  cause : String
  source : Int
  target : Int
  success : Bool
  sourceOverrides : Valuation
  targetOverrides : Valuation
  reason : Option String
  deriving DecidableEq

/-- The latest entries, oldest first. -/
structure Log (α : Type) where
  capacity : Nat
  entries : List α

namespace Log

variable {α : Type}

def empty (capacity : Nat) : Log α := ⟨capacity, []⟩

/-- Adds an entry; beyond the capacity the oldest goes. -/
def push (log : Log α) (a : α) : Log α :=
  let entries := log.entries ++ [a]
  { log with entries := entries.drop (entries.length - log.capacity) }

def size (log : Log α) : Nat := log.entries.length

def last? (log : Log α) : Option α := log.entries.getLast?

end Log

end Chronicle
