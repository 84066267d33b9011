import Chronicle.Period

/-!
# Timelines

The periods visited so far, by ascending time and one for each.
-/

namespace Chronicle

structure Timeline where
  periods : List Period
  deriving DecidableEq

namespace Timeline

def putIn (p : Period) : List Period → List Period
  | [] => [p]
  | q :: rest =>
    if p.time < q.time then p :: q :: rest
    else if p.time = q.time then p :: rest
    else q :: putIn p rest

/-- Adds a period, in place of the one at its time if there is one. -/
def put (l : Timeline) (p : Period) : Timeline := ⟨putIn p l.periods⟩

def at? (l : Timeline) (time : Int) : Option Period := l.periods.find? fun p => p.time == time

def times (l : Timeline) : List Int := l.periods.map Period.time

/-- The period at a time; before its first visit nothing is known of it. -/
def period (l : Timeline) (time : Int) : Period := (l.at? time).getD (.blank time)

theorem find?_putIn (p : Period) (time : Int) (l : List Period) :
    (putIn p l).find? (fun q => q.time == time) =
      if p.time = time then some p else l.find? fun q => q.time == time := by
  induction l with
  | nil => by_cases h : p.time = time <;> simp [putIn, h]
  | cons q rest ih =>
    unfold putIn
    split
    · by_cases h : p.time = time <;> simp [h]
    · split
      next he => by_cases h : p.time = time <;> simp [h, ← he]
      next hl he =>
        by_cases hq : q.time = time
        · have h : ¬ p.time = time := fun h => he (h.trans hq.symm)
          simp [hq, h]
        · simp [hq, ih]

theorem at?_put (l : Timeline) (p : Period) (time : Int) :
    (l.put p).at? time = if p.time = time then some p else l.at? time :=
  find?_putIn p time l.periods

def visit (l : Timeline) (time : Int) : Timeline := l.put (l.period time)

end Timeline

end Chronicle
