import Chronicle.Proofs.World.Reach

/-!
# A dry run tells the truth

How a journey ends is settled before it changes anything, and the log has no part in it
(`ending_logged`).  In a reachable world it is always settled, because the search for a history does
not fail (`Reachable.exists_ending`).  So a dry run leaves no trace but its report, and the journey
after it ends as it said (`canTravel_tells_travel`).
-/

namespace Chronicle.World

variable {g : Graph} {w : World} {time : Int} {verdict : Verdict} {conflicts : List String}

theorem exists_ending (hg : w.graph.WellFormed) (hl : w.graph.IsLocal)
    (hd : ∀ a ∈ (w.timeline.period time).antecedentList, Arrival.Declared w.graph a) :
    ∃ e, w.ending time = .ok e := by
  unfold ending
  split
  · exact ⟨_, rfl⟩
  · split
    · exact ⟨_, rfl⟩
    · split
      · exact ⟨_, rfl⟩
      · rcases Arrival.find_cases hg hl hd _ with ⟨a, hf, _⟩ | ⟨hf, _⟩
        · rw [hf]
          exact ⟨_, rfl⟩
        · rw [hf]
          exact ⟨_, rfl⟩

theorem Reachable.exists_ending (hg : g.IsValid) (hl : g.IsLocal) (hw : Reachable g w)
    (time : Int) : ∃ verdict conflicts, w.ending time = .ok (verdict, conflicts) := by
  have hgraph := hw.graph_eq hg.wellFormed
  have hfirings := hw.forall_period hg.wellFormed (Period.kept_firingsDeclared g) time
  subst hgraph
  obtain ⟨⟨verdict, conflicts⟩, h⟩ :=
    World.exists_ending hg.wellFormed hl (hfirings.declared hg.wellFormed)
  exact ⟨verdict, conflicts, h⟩

/-- **A dry run tells the truth and leaves no trace.**  It changes nothing but the log, to which it
adds one report; the journey right after it is not refused with an error, gives the same answer and
reports the same verdict.  Nor does a journey without a dry run before it end in an error. -/
theorem canTravel_tells_travel (hg : g.IsValid) (hl : g.IsLocal) (hw : Reachable g w)
    (time : Int) :
    ∃ dry real : TravelReport,
      w.answer (.canTravel time) = .ok (some dry.succeeded) ∧
      w.next (.canTravel time) = { w with travelLog := w.travelLog.push dry } ∧
      dry.dryRun = true ∧
      (w.next (.canTravel time)).answer (.travel time) = .ok (some dry.succeeded) ∧
      ((w.next (.canTravel time)).next (.travel time)).travelLog =
        (w.travelLog.push dry).push real ∧
      real.dryRun = false ∧ real.verdict = dry.verdict ∧
      w.answer (.travel time) = .ok (some dry.succeeded) := by
  have hwell : w.graph.WellFormed := (hw.graph_eq hg.wellFormed) ▸ hg.wellFormed
  obtain ⟨verdict, conflicts, hend⟩ := hw.exists_ending hg hl time
  obtain ⟨w', overrides, hdry, hsame, _⟩ := travel_run_of_ending hwell hend true
  obtain rfl := hsame rfl
  obtain ⟨hanswer, hnext⟩ := answer_canTravel hdry
  -- The journey starts from the world with the report of the dry run, where it ends the same.
  obtain ⟨w'', overrides', hreal, _, hlog, _⟩ := travel_run_of_ending
    (w := w'.logged ⟨w'.now, time, verdict, true, conflicts, overrides⟩) hwell
    ((ending_logged _ _ _).trans hend) false
  obtain ⟨hanswer', hnext'⟩ := answer_travel hreal
  obtain ⟨_, _, halone, _⟩ := travel_run_of_ending hwell hend false
  refine ⟨⟨w'.now, time, verdict, true, conflicts, overrides⟩,
    ⟨w'.now, time, verdict, false, conflicts, overrides'⟩, hanswer, hnext, rfl, ?_, ?_, rfl, rfl,
    (answer_travel halone).1⟩
  · rw [hnext]
    exact hanswer'
  · rw [hnext, hnext']
    exact congrArg (fun log => Log.push log _) hlog

/-- The clock after the alarm went off and the lamp was seen dark one tick before. -/
def lampSeen : World :=
  (start Graph.clock .standard none).after
    [.write Graph.Clock.low.symbol true, .travel (-1), .read Graph.Clock.lamp.symbol]

theorem lampSeen_reachable : Reachable Graph.clock lampSeen := ⟨.standard, none, _, rfl⟩

theorem canTravel_tells_travel_lampSeen :
    ∃ dry : TravelReport, lampSeen.answer (.canTravel 0) = .ok (some dry.succeeded) ∧
      (lampSeen.next (.canTravel 0)).answer (.travel 0) = .ok (some dry.succeeded) := by
  obtain ⟨dry, _, hdry, _, _, hreal, _⟩ := canTravel_tells_travel Graph.clock_isValid
    Graph.clock_isLocal lampSeen_reachable 0
  exact ⟨dry, hdry, hreal⟩

end Chronicle.World
