import Chronicle.Proofs.Arrival.Blank
import Chronicle.Proofs.Period.Leaving
import Chronicle.Proofs.World.Operate
import Chronicle.Proofs.World.Return

/-!
# Travel to an unvisited future

A journey to a later time that was never visited is refused only if what leaves the present
contradicts itself, and it does not where what is known now is consistent.  The destination takes
only the news of what was found, and yet everything there reads as in the state that what was left
behind leads to (`unvisited_future_carries`).
-/

namespace Chronicle.World

variable {g : Graph} {w : World} {time : Int} {q : Valuation}

/-- How a journey to a later time runs that was never visited: what leaves is all that there is to
find a history for. -/
theorem travel_run_unvisited (hg : w.graph.WellFormed) (hl : w.graph.IsLocal) (ht : w.now < time)
    (hnew : w.timeline.at? time = none)
    (hq : w.graph.findConsistent .latched w.leaving = .ok (some q)) :
    (travel time false).run w =
      (.ok true, (w.arrived time (Arrival.startOverrides w.graph (.blank time) q)).logged
        ⟨w.now, time, .arrived, false, [], Arrival.startOverrides w.graph (.blank time) q⟩) := by
  have hperiod := period_of_unvisited hnew
  have hmerge : w.graph.merge w.leaving (w.started time) = some w.leaving := by
    rw [started, hperiod, Period.startState_blank, Period.merge_empty_right]
  have hfind : Arrival.find w.graph w.leaving (w.timeline.period time) =
      .ok (some ⟨q, q, Arrival.startOverrides w.graph (.blank time) q⟩) := by
    rw [hperiod]
    exact Arrival.find_blank hg hl (Period.isKnowledge_endState hg w.current) hq
  exact travel_run_arrived ht hmerge hfind hg

/-- **What leaves is consistent if what is known is**, and the first consistent state that extends
it has a completion. -/
theorem Reachable.exists_left (hg : g.IsValid) (hl : g.IsLocal) (hw : Reachable g w)
    (hk : ∃ q, g.findConsistent .latched w.knowledge = .ok (some q)) :
    ∃ q state, g.findConsistent .latched (w.current.endState g) = .ok (some q) ∧
      g.complete? .latched q = .ok (some state) ∧ g.IsCompletion .latched q state ∧
      state.Extends (w.current.endState g) := by
  have hwell := hg.wellFormed
  obtain rfl := hw.graph_eq hwell
  have hfresh := hw.forall_period hwell (Period.kept_fresh hwell) w.now
  have hleaving := Period.isKnowledge_endState hwell w.current
  obtain ⟨M, hM⟩ := (Graph.exists_findConsistent_iff hwell hl
    (isKnowledge_knowledge hwell)).mp hk
  have hleft := Period.exists_isModel_endState hwell hg.closed hl hfresh hM
  rcases Graph.findConsistent_cases hwell hl .latched (w.current.endState w.graph) with
    ⟨q, hfind, hflipped, state, hstate⟩ | ⟨_, hnone⟩
  · have hcompletion := Graph.isCompletion_of_complete? hwell hl
      (hflipped.isKnowledge hwell hleaving) hstate
    refine ⟨q, state, hfind, hstate, hcompletion, ?_⟩
    intro name b hb
    exact hcompletion.extends_known name b (hflipped.extends hwell name b hb)
  · obtain ⟨q, hq, hc⟩ := (Graph.solvable_iff hwell hl hleaving).mpr hleft
    exact absurd hc (hnone q hq)

/-- **Travel to an unvisited future is never refused and carries the state.**  If what is known now
is consistent, so is what leaves; the journey arrives at its destination, and every variable of the
graph reads there as in the completion of the first consistent state that extends what left. -/
theorem unvisited_future_carries (hg : g.IsValid) (hl : g.IsLocal) (hw : Reachable g w)
    (hk : ∃ q, g.findConsistent .latched w.knowledge = .ok (some q)) (ht : w.now < time)
    (hnew : w.timeline.at? time = none) :
    ∃ q state report, g.findConsistent .latched (w.current.endState g) = .ok (some q) ∧
      g.complete? .latched q = .ok (some state) ∧ state.Extends (w.current.endState g) ∧
      w.answer (.travel time) = .ok (some true) ∧ (w.next (.travel time)).now = time ∧
      (w.next (.travel time)).travelLog = w.travelLog.push report ∧ report.verdict = .arrived ∧
      report.destination = time ∧
      ∀ v ∈ g.declared, ∃ b, state.get? v.name = some b ∧
        (w.next (.travel time)).answer (.peek v.symbol) = .ok (some b) := by
  have hwell := hg.wellFormed
  obtain ⟨q, state, hfind, hstate, hcompletion, hextends⟩ := hw.exists_left hg hl hk
  obtain rfl := hw.graph_eq hwell
  obtain ⟨hanswer, hnext⟩ := answer_travel (travel_run_unvisited hwell hl ht hnew hfind)
  refine ⟨q, state, ⟨w.now, time, .arrived, false, [],
    Arrival.startOverrides w.graph (.blank time) q⟩, hfind, hstate, hextends, hanswer, ?_, ?_, rfl,
    rfl, ?_⟩
  · rw [hnext]
    rfl
  · rw [hnext]
    rfl
  · -- The destination knows nothing but the news, and these complete to the same state.
    intro v hv
    obtain ⟨b, hb⟩ := Option.isSome_iff_exists.mp
      ((hcompletion.total v.name).mpr (List.mem_map_of_mem hv))
    have hspans := Arrival.spans_overridden_blank hwell time hcompletion
    rw [← period_of_unvisited hnew] at hspans
    have hgraph : (w.next (.travel time)).graph = w.graph := by
      rw [hnext]
      rfl
    have hcurrent : (w.next (.travel time)).current = (w.timeline.period time).overridden
        (Arrival.startOverrides w.graph (w.timeline.period time) q).entries := by
      rw [hnext, current_arrived, period_of_unvisited hnew]
    refine ⟨b, hb, answer_peek_of_isCompletion (hgraph ▸ hwell) (hgraph ▸ hl) ?_ (hgraph ▸ hv) hb⟩
    rw [knowledge, hgraph, hcurrent]
    exact hspans.now

/-- The lever is still pulled one tick later, and so the door is still open there. -/
theorem unvisited_future_carries_doorOpened :
    (∃ q, Graph.doorway.findConsistent .latched doorOpened.knowledge = .ok (some q)) ∧
      doorOpened.now < 1 ∧ doorOpened.timeline.at? 1 = none ∧
      (doorOpened.next (.travel 1)).now = 1 ∧
      (∃ report, (doorOpened.next (.travel 1)).travelLog = doorOpened.travelLog.push report ∧
        report.verdict = .arrived ∧ report.destination = 1) ∧
      (doorOpened.next (.travel 1)).answer (.peek Graph.Door.door.symbol) = .ok (some true) := by
  have hk : Graph.doorway.findConsistent .latched doorOpened.knowledge =
      .ok (some (.ofList [("lever", true), ("alarm", true)])) := by
    decide +kernel
  have hnow : doorOpened.now < 1 := by decide +kernel
  have hnew : doorOpened.timeline.at? 1 = none := by decide +kernel
  obtain ⟨q, state, report, hq, hstate, _, _, harrived, hlog, hverdict, hdestination, hreads⟩ :=
    unvisited_future_carries Graph.doorway_isValid Graph.doorway_isLocal doorOpened_reachable
      ⟨_, hk⟩ hnow hnew
  have hfind : Graph.doorway.findConsistent .latched (doorOpened.current.endState Graph.doorway) =
      .ok (some (.ofList [("lever", true)])) := by
    decide +kernel
  rw [hfind] at hq
  cases hq
  have hcomplete : Graph.doorway.complete? .latched (.ofList [("lever", true)]) =
      .ok (some (.ofList [("lever", true), ("door", true), ("alarm", true)])) := by
    decide +kernel
  rw [hcomplete] at hstate
  cases hstate
  obtain ⟨b, hb, hanswer⟩ := hreads Graph.Door.door (by simp [Graph.doorway])
  have hopen : b = true := Option.some.inj (hb.symm.trans (by decide +kernel))
  exact ⟨⟨_, hk⟩, hnow, hnew, harrived, ⟨report, hlog, hverdict, hdestination⟩, hopen ▸ hanswer⟩

end Chronicle.World
