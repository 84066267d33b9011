import Chronicle.Search

/-!
# Evaluation without a search

Values for the mutables determine everything else: each rule is applied once, in evaluation order,
and nothing is assumed, compared or flipped.  It is what a world without latches amounts to as
long as nobody leaves its first period.
-/

namespace Chronicle.Graph

variable (g : Graph)

def defaults : Valuation := g.fill .empty

def applyRules : List Variable → Valuation → Except Error Valuation
  | [], s => .ok s
  | v :: rest, s => do applyRules rest (s.set v.name (← v.computes s))

/-- The state of the world in which the mutables have these values. -/
def evaluateOn (environment : Valuation) : Except Error Valuation :=
  applyRules g.order environment

def dialsValid (s : Valuation) : Except Error Bool :=
  g.dials.allM fun d => d.isValid s

end Chronicle.Graph
