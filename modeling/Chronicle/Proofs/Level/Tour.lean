import Chronicle.Level.Game
import Chronicle.Proofs.World.Reconciled
import Mathlib.Data.List.Dedup
import Mathlib.Data.List.Rotate

/-!
# The tour of a booth

From any tick a booth leads to the first allowed time after it.  The place of that time is the
number of allowed times that have passed (`find?_eq_getElem?`), and this also holds on the way back
to the first, where all have passed (`nextTime_eq`).  A step that starts at an allowed time goes one
place on (`nextTime_timeAt`), so a tour goes from place to place (`iterate_nextTime`), and as many
steps as there are times go through all of them in turn (`tour`).

A player who enters the booth time and again goes the same way, as long as no journey is refused
(`now_rides`).
-/

namespace Chronicle

namespace Booth

variable {b : Booth} {l times : List Int} {now : Int} {n i : Nat}

/-! ### Places -/

theorem countP_of_forall_lt (h : ∀ t ∈ l, now < t) : l.countP (· ≤ now) = 0 := by
  rw [List.countP_eq_zero]
  intro t ht
  simpa using h t ht

/-- In an ascending list the first time after a tick stands where those end that have passed. -/
theorem find?_eq_getElem? (h : l.Pairwise (· < ·)) (now : Int) :
    l.find? (fun t => now < t) = l[l.countP (· ≤ now)]? := by
  induction l with
  | nil => rfl
  | cons t rest ih =>
    obtain ⟨hfirst, hrest⟩ := List.pairwise_cons.mp h
    by_cases ht : now < t
    · have hnone : (t :: rest).countP (· ≤ now) = 0 :=
        countP_of_forall_lt (List.forall_mem_cons.mpr
          ⟨ht, fun u hu => Int.lt_trans ht (hfirst u hu)⟩)
      rw [List.find?_cons_of_pos (by simpa using ht), hnone, List.getElem?_cons_zero]
    · have hpassed : (t :: rest).countP (· ≤ now) = rest.countP (· ≤ now) + 1 :=
        List.countP_cons_of_pos (by simpa using ht)
      rw [List.find?_cons_of_neg (by simpa using ht), ih hrest, hpassed, List.getElem?_cons_succ]

theorem countP_getElem (h : l.Pairwise (· < ·)) (hi : i < l.length) :
    l.countP (· ≤ l[i]) = i + 1 := by
  induction l generalizing i with
  | nil => simp at hi
  | cons t rest ih =>
    obtain ⟨hfirst, hrest⟩ := List.pairwise_cons.mp h
    cases i with
    | zero =>
      rw [List.getElem_cons_zero, List.countP_cons_of_pos (by simp), countP_of_forall_lt hfirst]
    | succ i =>
      have hi : i < rest.length := by simpa using hi
      have hlt := hfirst rest[i] (List.getElem_mem hi)
      rw [List.getElem_cons_succ, List.countP_cons_of_pos (by simp; omega), ih hrest hi]

def passed (b : Booth) (now : Int) : Nat := b.times.countP (· ≤ now)

theorem passed_le (b : Booth) (now : Int) : b.passed now ≤ b.times.length := List.countP_le_length

/-- The allowed time at a place, where the places go round. -/
def timeAt (b : Booth) (n : Nat) : Int :=
  b.times.get ⟨n % b.times.length, Nat.mod_lt n (Nat.succ_pos b.rest.length)⟩

theorem timeAt_add_length (b : Booth) (n : Nat) : b.timeAt (n + b.times.length) = b.timeAt n := by
  unfold timeAt
  simp only [Nat.add_mod_right]

theorem passed_timeAt (b : Booth) (n : Nat) : b.passed (b.timeAt n) = n % b.times.length + 1 :=
  countP_getElem b.ascending _

/-- **The next time** stands where those end that have passed, or first if all have. -/
theorem nextTime_eq (b : Booth) (now : Int) : b.nextTime now = b.timeAt (b.passed now) := by
  have hfind : b.times.find? (fun t => now < t) = b.times[b.passed now]? :=
    find?_eq_getElem? b.ascending now
  rw [nextTime, hfind, timeAt]
  rcases Nat.lt_or_eq_of_le (b.passed_le now) with hlt | hall
  · simp only [Nat.mod_eq_of_lt hlt]
    rw [List.getElem?_eq_getElem hlt, Option.getD_some]
    rfl
  · have hnone : b.times[b.times.length]? = none := List.getElem?_eq_none (Nat.le_refl _)
    simp only [hall, Nat.mod_self]
    rw [hnone, Option.getD_none]
    rfl

theorem nextTime_timeAt (b : Booth) (n : Nat) : b.nextTime (b.timeAt n) = b.timeAt (n + 1) := by
  rw [nextTime_eq, passed_timeAt]
  unfold timeAt
  simp only [Nat.mod_add_mod]

/-- **From the first step on** a tour goes from place to place. -/
theorem iterate_nextTime (b : Booth) (now : Int) (n : Nat) :
    b.nextTime^[n + 1] now = b.timeAt (b.passed now + n) := by
  induction n with
  | zero => exact b.nextTime_eq now
  | succ n ih => rw [Function.iterate_succ_apply', ih, nextTime_timeAt, Nat.add_assoc]

/-- **A tour** of as many steps as there are allowed times goes through them in turn. -/
theorem tour (b : Booth) (now : Int) :
    ((List.range b.times.length).map fun i => b.nextTime^[i + 1] now) =
      b.times.rotate (b.passed now) := by
  refine List.ext_getElem (by simp) ?_
  intro i _ _
  rw [List.getElem_map, List.getElem_range, iterate_nextTime, List.getElem_rotate, Nat.add_comm]
  rfl

/-! ### Booths that are built -/

theorem mem_sortTimes {x : Int} : x ∈ sortTimes times ↔ x ∈ times := by
  induction times with
  | nil => rfl
  | cons t rest ih =>
    have hcons : sortTimes (t :: rest) = insertTime t (sortTimes rest) := rfl
    rw [hcons, mem_insertTime, ih, List.mem_cons]

theorem sortTimes_perm (times : List Int) : (sortTimes times).Perm times.dedup := by
  rw [List.perm_ext_iff_of_nodup]
  · intro x
    rw [mem_sortTimes, List.mem_dedup]
  · exact (sortTimes_ascending times).imp fun h => Int.ne_of_lt h
  · exact List.nodup_dedup times

theorem exists_ofTimes (h : times ≠ []) :
    ∃ b, ofTimes times = .ok b ∧ b.times = sortTimes times := by
  obtain ⟨t, ht⟩ := List.exists_mem_of_ne_nil times h
  unfold ofTimes
  split
  next hnone =>
    have hmem := mem_sortTimes.mpr ht
    rw [hnone] at hmem
    cases hmem
  next first rest hsome => exact ⟨_, rfl, hsome.symm⟩

/-! ### Riding -/

/-- The world after a booth has been entered a number of times. -/
def rides (b : Booth) (n : Nat) (w : World) : World :=
  (fun w => ((Game.enter b).run w).2)^[n] w

end Booth

namespace World

variable {w w' : World} {time : Int}

/-- **A journey that succeeds** ends at its destination. -/
theorem now_of_travel (hg : w.graph.WellFormed) (h : (travel time false).run w = (.ok true, w')) :
    w'.now = time := by
  rcases Int.lt_trichotomy time w.now with hlt | rfl | hlt
  · rw [travel_run_rewound hlt] at h
    cases h
    rfl
  · rw [travel_run_stayed] at h
    cases h
    rfl
  · obtain ⟨hanswer, hnext⟩ := answer_travel h
    obtain ⟨_, _, _, _, harrived⟩ := arrived_of_answer hg hlt hanswer
    rw [← hnext, harrived]
    rfl

end World

namespace Booth

variable {b : Booth} {times : List Int} {w : World} {n : Nat}

theorem enter_run (b : Booth) (w : World) :
    (Game.enter b).run w = (World.travel (b.nextTime w.now) false).run w := rfl

/-- **Whoever rides is on the tour**, as long as no journey is refused. -/
theorem now_rides (hg : w.graph.WellFormed)
    (h : ∀ i < n, ((Game.enter b).run (b.rides i w)).1 = .ok true) :
    (b.rides n w).now = b.nextTime^[n] w.now ∧ (b.rides n w).graph = w.graph := by
  induction n with
  | zero => exact ⟨rfl, rfl⟩
  | succ n ih =>
    obtain ⟨hnow, hgraph⟩ := ih fun i hi => h i (by omega)
    have hlast := h n (by omega)
    have hnext : b.rides (n + 1) w = ((Game.enter b).run (b.rides n w)).2 :=
      Function.iterate_succ_apply' _ n w
    have hrun : (World.travel (b.nextTime (b.rides n w).now) false).run (b.rides n w) =
        (.ok true, b.rides (n + 1) w) := by
      rw [hnext, ← hlast, ← enter_run]
      rfl
    refine ⟨?_, ?_⟩
    · rw [World.now_of_travel (hgraph ▸ hg) hrun, hnow, Function.iterate_succ_apply']
    · have hpath := World.path_travel (hgraph ▸ hg) (b.nextTime (b.rides n w).now)
      rw [hrun] at hpath
      exact (World.graph_eq_of_path hpath).trans hgraph

/-- **A booth visits every allowed time in turn.**  Let it be built of some times, in any order and
with repeats, `k` of them distinct.  From any tick, allowed or not, `k` steps visit each of the `k`
times exactly once, and from the first step on the tour repeats itself every `k` steps.  This is
also the way of a player who enters the booth again and again, as long as no journey is refused. -/
theorem visits_in_turn (h : times ≠ []) :
    ∃ b, ofTimes times = .ok b ∧ ∀ now : Int,
      ((List.range times.dedup.length).map fun i => b.nextTime^[i + 1] now).Perm times.dedup ∧
      (∀ n, b.nextTime^[n + 1 + times.dedup.length] now = b.nextTime^[n + 1] now) ∧
      ∀ (g : Graph) (w : World) (n : Nat), g.IsValid → World.Reachable g w → w.now = now →
        (∀ i < n, ((Game.enter b).run (b.rides i w)).1 = .ok true) →
        (b.rides n w).now = b.nextTime^[n] now := by
  obtain ⟨b, hb, htimes⟩ := exists_ofTimes h
  have hperm : b.times.Perm times.dedup := htimes ▸ sortTimes_perm times
  refine ⟨b, hb, ?_⟩
  intro now
  rw [← hperm.length_eq]
  refine ⟨?_, ?_, ?_⟩
  · rw [tour]
    exact (List.rotate_perm _ _).trans hperm
  · intro n
    have hround : n + 1 + b.times.length = n + b.times.length + 1 := by omega
    rw [hround, iterate_nextTime, iterate_nextTime, ← Nat.add_assoc, timeAt_add_length]
  · rintro g w n hg hw rfl hrides
    have hwell := hg.wellFormed
    exact (now_rides (hw.graph_eq hwell ▸ hwell) hrides).1

/-- Four times, one of them twice; the lamp in the cellar is lit on the way. -/
theorem visits_in_turn_cellar :
    ∃ b, ofTimes [3, -1, 3, 0] = .ok b ∧
      ((List.range 3).map fun i => b.nextTime^[i + 1] 1).Perm [-1, 3, 0] ∧
      b.nextTime^[7] 1 = b.nextTime^[4] 1 ∧
      (b.rides 3 ((World.start Graph.cellar .standard (some 1)).next
        (.write Graph.Cellar.lamp.symbol true))).now = b.nextTime^[3] 1 := by
  have hsome : ([3, -1, 3, 0] : List Int) ≠ [] := by decide
  obtain ⟨b, hb, hall⟩ := visits_in_turn hsome
  obtain ⟨hvisits, hperiod, hrides⟩ := hall 1
  have hbooth : b = ⟨-1, [0, 3], by decide⟩ := Except.ok.inj (hb.symm.trans rfl)
  refine ⟨b, hb, hvisits, hperiod 3, ?_⟩
  refine hrides Graph.cellar _ 3 Graph.cellar_isValid
    ⟨.standard, some 1, [.write Graph.Cellar.lamp.symbol true], rfl⟩ rfl ?_
  rw [hbooth]
  decide +kernel

end Booth

end Chronicle
