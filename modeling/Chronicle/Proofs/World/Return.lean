import Chronicle.Proofs.World.DryRun

/-!
# Going back and returning

To go back to a time that was never visited, and to return at once, leaves the period that was left
as it was but for the overrides of the return.  Nothing leaves the blank period in between, so the
return has to explain what the period started from by itself: it is accepted exactly if some
history of the start fits the period (`return_accepted_iff`).  Not every period has one, because
the start can have known what the firing did not: in `doorOpened` the door was seen shut before the
lever opened it and set off the alarm.
-/

namespace Chronicle

namespace Period

variable {g : Graph} {time : Int} {q : Valuation}

theorem endState_blank (g : Graph) (time : Int) : (blank time).endState g = .empty := by
  refine collect_eq_empty ?_
  intro v _
  have hout : ((blank time).record v.name).outgoing = none := rfl
  rw [hout, ite_self]

theorem merge_empty (g : Graph) (q : Valuation) : g.merge .empty q = some q := by
  rw [Graph.merge_eq_some_iff]
  refine ⟨?_, (Table.update_empty q).symm⟩
  rw [List.eq_nil_iff_forall_not_mem]
  intro name hn
  obtain ⟨_, a, _, ha, _⟩ := Graph.mem_conflicts_iff.mp hn
  cases ha

theorem merge_empty_right (g : Graph) (q : Valuation) : g.merge q .empty = some q := by
  rw [Graph.merge_eq_some_iff]
  refine ⟨?_, rfl⟩
  rw [List.eq_nil_iff_forall_not_mem]
  intro name hn
  obtain ⟨_, _, b, _, hb, _⟩ := Graph.mem_conflicts_iff.mp hn
  cases hb

end Period

namespace World

variable {g : Graph} {w : World} {time : Int}

theorem period_of_unvisited (h : w.timeline.at? time = none) :
    w.timeline.period time = .blank time := by
  rw [Timeline.period, h, Option.getD_none]

theorem next_travel_back (ht : time < w.now) :
    w.answer (.travel time) = .ok (some true) ∧
      w.next (.travel time) =
        (w.moved time).logged ⟨w.now, time, .rewound, false, [], .empty⟩ :=
  answer_travel (travel_run_rewound ht false)

theorem period_moved (w : World) (time other : Int) :
    (w.moved time).timeline.period other = w.timeline.period other := by
  show (w.timeline.put (w.timeline.period time)).period other = _
  rw [Timeline.period_put, Timeline.time_period]
  split
  next h => rw [h]
  next => rfl

/-- **Going back and returning** is accepted exactly if some history of what the period started
from fits it; in particular if some consistent one lets every latch fire as it stands, and what the
period knows allows its overrides.  After the return the period knows what it knew. -/
theorem return_accepted_iff (hg : g.IsValid) (hl : g.IsLocal) (hw : Reachable g w)
    (ht : time < w.now) (hnew : w.timeline.at? time = none) :
    w.answer (.travel time) = .ok (some true) ∧
    ∃ b, (w.next (.travel time)).answer (.travel w.now) = .ok (some b) ∧
      (b = true ↔ ∃ a : Arrival, a.Fits g (w.current.startState g) w.current) ∧
      ((∃ c, g.Flipped (w.current.startState g) c ∧ g.Consistent .latched c ∧
          (∀ d ∈ w.current.antecedentList, Arrival.FiresByDefault g c d) ∧
          g.Solvable .latched ((w.current.currentState g).update
            (Arrival.startOverrides g w.current c).entries)) → b = true) ∧
      (b = true → ((w.next (.travel time)).next (.travel w.now)).now = w.now ∧
        ∀ name c, w.current.peek name = some c →
          ((w.next (.travel time)).next (.travel w.now)).current.peek name = some c) := by
  have hwell := hg.wellFormed
  obtain rfl := hw.graph_eq hwell
  obtain ⟨hback, hnext⟩ := next_travel_back ht
  have hfirings := hw.forall_period hwell (Period.kept_firingsDeclared w.graph) w.now
  rw [hnext]
  refine ⟨hback, ?_⟩
  generalize hw' : (w.moved time).logged ⟨w.now, time, .rewound, false, [], .empty⟩ = w'
  have hgraph : w'.graph = w.graph := hw' ▸ rfl
  have hforward : w'.now < w.now := hw' ▸ ht
  have hdestination : w'.timeline.period w.now = w.current := hw' ▸ period_moved w time w.now
  have hmerge : w'.graph.merge w'.leaving (w'.started w.now) =
      some (w.current.startState w.graph) := by
    have hblank : w'.current = .blank time := by
      rw [← period_of_unvisited hnew, ← period_moved w time time, ← hw']
      rfl
    rw [leaving, started, hblank, Period.endState_blank, hdestination, hgraph, Period.merge_empty]
  rcases Arrival.find_cases hwell hl (hfirings.declared hwell) (w.current.startState w.graph) with
    ⟨a, hf, hfits⟩ | ⟨hf, hnone⟩
  · have hf' : Arrival.find w'.graph (w.current.startState w.graph) (w'.timeline.period w.now) =
        .ok (some a) := by
      rw [hgraph, hdestination]
      exact hf
    have hrun := travel_run_arrived hforward hmerge hf' (hgraph ▸ hwell)
    obtain ⟨hanswer, hafter⟩ := answer_travel hrun
    refine ⟨true, hanswer, ⟨fun _ => ⟨a, hfits⟩, fun _ => rfl⟩, fun _ => rfl, fun _ => ⟨?_, ?_⟩⟩
    · rw [hafter]
      rfl
    · intro name c hc
      rw [hafter, current_arrived, hdestination]
      exact Period.peek_overridden (hfits.accepts hwell) hc
  · have hrun := travel_run_forward hforward false
    rw [hmerge] at hrun
    dsimp only at hrun
    rw [hgraph, hdestination, show Arrival.find w.graph _ w.current = _ from hf] at hrun
    refine ⟨false, (answer_travel hrun).1, ⟨nofun, ?_⟩, ?_, nofun⟩
    · rintro ⟨a, hfits⟩
      exact absurd hfits (hnone a)
    · rintro ⟨c, hflipped, hc, hfire, hknown⟩
      exact absurd (Arrival.fits_of_firesByDefault hflipped hc hfire hknown) (hnone _)

end World

/-! ### A door that was seen shut -/

namespace Graph

namespace Door

def lever : Variable := ⟨⟨"lever", 0⟩, .mutable false true, [], []⟩

/-- Open when the lever is pulled. -/
def door : Variable :=
  ⟨⟨"door", 1⟩, .derived (Formula.value "lever").rule, [lever.symbol], [lever.symbol]⟩

/-- Fires when the door opens. -/
def alarm : Variable :=
  ⟨⟨"alarm", 2⟩, .triggered (Formula.value "door").rule false, [door.symbol],
    [door.symbol, lever.symbol]⟩

def entries : List Entry :=
  [⟨"lever", .mutable "lever" false true, []⟩,
    ⟨"door", .derived "door" [.label "lever"] (Formula.value "lever").rule, []⟩,
    ⟨"alarm", .triggered "alarm" [.label "door"] (Formula.value "door").rule false, []⟩]

end Door

open Door in
def doorway : Graph := ⟨[lever, door, alarm], [], [door, alarm]⟩

theorem doorway_isValid : doorway.IsValid :=
  isValid_of_made doorway Door.entries rfl (fun _ hv => hv) (fun _ hd => nomatch hd) rfl

theorem doorway_isLocal : doorway.IsLocal := by
  apply isLocal_of_reads
  intro v hv rule hr
  simp only [doorway, List.mem_cons, List.not_mem_nil, or_false] at hv
  rcases hv with rfl | rfl | rfl
  · cases hr
  · cases hr
    exact ⟨.value "lever", rfl, by decide⟩
  · cases hr
    exact ⟨.value "door", rfl, by decide⟩

end Graph

namespace World

/-- The door was seen shut, then the lever was pulled and the alarm went off. -/
def doorOpened : World :=
  (start Graph.doorway .standard none).after
    [.read Graph.Door.door.symbol, .write Graph.Door.lever.symbol true]

theorem doorOpened_reachable : Reachable Graph.doorway doorOpened := ⟨.standard, none, _, rfl⟩

/-- No history of a shut door lets the alarm go off. -/
theorem return_accepted_iff_doorOpened :
    ¬ ∃ a : Arrival, a.Fits Graph.doorway (doorOpened.current.startState Graph.doorway)
      doorOpened.current := by
  have hback : (-1 : Int) < doorOpened.now := by decide +kernel
  obtain ⟨_, b, hb, hiff, _⟩ := return_accepted_iff Graph.doorway_isValid
    Graph.doorway_isLocal doorOpened_reachable hback (by decide +kernel)
  have hrefused : (doorOpened.next (.travel (-1))).answer (.travel doorOpened.now) =
      .ok (some false) := by decide +kernel
  rw [hrefused] at hb
  cases hb
  intro h
  cases hiff.mpr h

/-- A return can be refused, though all that is known is consistent. -/
theorem doorOpened_return_refused :
    ¬ ∀ (g : Graph) (w : World) (time : Int), g.IsValid → Reachable g w →
      w.settings = .standard → (∃ s, g.solve w.knowledge = .ok (some s)) → time < w.now →
      w.timeline.at? time = none →
      (w.next (.travel time)).answer (.travel w.now) = .ok (some true) := by
  intro hall
  have hsolved : ∃ s, Graph.doorway.solve doorOpened.knowledge = .ok (some s) := by
    have h : Graph.doorway.solve doorOpened.knowledge =
        .ok (some (.ofList [("lever", true), ("alarm", true), ("door", true)])) := by
      decide +kernel
    exact ⟨_, h⟩
  have hreturn := hall Graph.doorway doorOpened (-1) Graph.doorway_isValid doorOpened_reachable
    (by decide +kernel) hsolved (by decide +kernel) (by decide +kernel)
  have hrefused : (doorOpened.next (.travel (-1))).answer (.travel doorOpened.now) =
      .ok (some false) := by decide +kernel
  rw [hrefused] at hreturn
  cases hreturn

end World

end Chronicle
