import Chronicle.Error

/-!
# Booths

A booth goes round a fixed list of times: to the next one after now, or from the last back to the
first.  The list is kept ascending, so it has each time once.
-/

namespace Chronicle

/-- A travel booth: the allowed times, ascending, of which there is a first. -/
structure Booth where
  first : Int
  rest : List Int
  ascending : (first :: rest).Pairwise (· < ·)

namespace Booth

def insertTime (t : Int) : List Int → List Int
  | [] => [t]
  | u :: rest =>
    if t < u then t :: u :: rest
    else if t = u then u :: rest
    else u :: insertTime t rest

theorem mem_insertTime {t x : Int} {l : List Int} : x ∈ insertTime t l ↔ x = t ∨ x ∈ l := by
  induction l with
  | nil => simp [insertTime]
  | cons u rest ih =>
    unfold insertTime
    split
    · simp
    · split
      next h => subst h; simp
      · simp only [List.mem_cons, ih]
        constructor <;> rintro (h | h | h) <;> simp [h]

theorem insertTime_ascending (t : Int) {l : List Int} (h : l.Pairwise (· < ·)) :
    (insertTime t l).Pairwise (· < ·) := by
  induction l with
  | nil => simp [insertTime]
  | cons u rest ih =>
    obtain ⟨hu, hr⟩ := List.pairwise_cons.1 h
    unfold insertTime
    split
    next htu =>
      refine List.pairwise_cons.2 ⟨fun x hx => ?_, h⟩
      rcases List.mem_cons.1 hx with rfl | hx
      · exact htu
      · exact Int.lt_trans htu (hu x hx)
    · split
      · exact h
      · refine List.pairwise_cons.2 ⟨fun x hx => ?_, ih hr⟩
        rcases mem_insertTime.1 hx with rfl | hx
        · omega
        · exact hu x hx

/-- The distinct times, ascending. -/
def sortTimes (times : List Int) : List Int := times.foldr insertTime []

theorem sortTimes_ascending (times : List Int) : (sortTimes times).Pairwise (· < ·) := by
  induction times with
  | nil => exact List.Pairwise.nil
  | cons t rest ih => exact insertTime_ascending t ih

/-- A booth that allows the times, in any order and with repeats. -/
def ofTimes (times : List Int) : Except Error Booth :=
  match h : sortTimes times with
  | [] => .error .emptyBooth
  | first :: rest => .ok ⟨first, rest, h ▸ sortTimes_ascending times⟩

def times (b : Booth) : List Int := b.first :: b.rest

/-- The first allowed time after now, or else the first of all. -/
def nextTime (b : Booth) (now : Int) : Int :=
  (b.times.find? fun t => now < t).getD b.first

end Booth

end Chronicle
