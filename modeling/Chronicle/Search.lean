import Chronicle.Completion

/-!
# The search for a consistent state

Where the completion by defaults meets an obstacle, unknown mutables are flipped away from their
defaults, one more at a time and depth first.  Below a flip only later mutables are flipped, so
every set of flips comes once; `flipSets` lists them in the order of the search.  The first state
that is accepted ends it, and nothing after that is evaluated.
-/

namespace Chronicle

namespace Search

variable {m : Type → Type} [Monad m] {β : Type}

/-- The valuation with one mutable pinned to the opposite of its default. -/
def flip (p : Valuation) (v : Variable) : Valuation := p.set v.name (!v.default)

/-- Below a state: each flip of a candidate followed by what lies below it. -/
def below (accept : Valuation → m (Option β)) : List Variable → Valuation → m (Option β)
  | [], _ => pure none
  | v :: rest, p => do
    match ← accept (flip p v) with
    | some r => return some r
    | none =>
      match ← below accept rest (flip p v) with
      | some r => return some r
      | none => below accept rest p

/-- The first answer on the state itself or below it. -/
def first (accept : Valuation → m (Option β)) (candidates : List Variable) (p : Valuation) :
    m (Option β) := do
  match ← accept p with
  | some r => return some r
  | none => below accept candidates p

/-- All sets of candidates in the order of the search: a set before those that extend it by later
candidates. -/
def flipSets : List Variable → List (List Variable)
  | [] => [[]]
  | v :: rest => [] :: ((flipSets rest).map (v :: ·) ++ (flipSets rest).tail)

end Search

namespace Graph

variable (g : Graph)

/-- The mutables of which nothing is known: what the search may flip. -/
def unknownMutables (p : Valuation) : List Variable :=
  g.mutables.filter fun v => !p.contains v.name

/-- The first consistent state in search order. -/
def findConsistent (mode : Mode) (p : Valuation) : Except Error (Option Valuation) :=
  Search.first (fun q => do return if ← g.isConsistent mode q then some q else none)
    (g.unknownMutables p) p

def takeConsistent (mode : Mode) (n : Nat) (p : Valuation) : Except Error (List Valuation) :=
  if n = 0 then .ok [] else
    let accept (q : Valuation) : StateT (List Valuation) (Except Error) (Option Unit) := do
      if ← g.isConsistent mode q then modify (· ++ [q])
      return if (← getThe (List Valuation)).length = n then some () else none
    Prod.snd <$> (Search.first accept (g.unknownMutables p) p).run []

def solve (p : Valuation) : Except Error (Option Valuation) := do
  match ← g.findConsistent .latched p with
  | some q => g.complete? .latched q
  | none => return none

/-- At most `depth` flips, any mutable still unknown being the next. -/
def findUnprunedWithin (mode : Mode) : Nat → Valuation → Except Error (Option Valuation)
  | 0, p => do return if ← g.isConsistent mode p then some p else none
  | depth + 1, p => do
    if ← g.isConsistent mode p then return some p
    (g.unknownMutables p).findSomeM? fun v => findUnprunedWithin mode depth (Search.flip p v)

/-- The search without the restriction to later candidates: it comes to one set of flips in every
order of its members. -/
def findUnpruned (mode : Mode) (p : Valuation) : Except Error (Option Valuation) :=
  g.findUnprunedWithin mode (g.unknownMutables p).length p

end Graph

end Chronicle
