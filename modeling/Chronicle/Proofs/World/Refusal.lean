import Chronicle.Proofs.World.Arrive

/-!
# When a journey is refused

A journey to a later time can be refused because its two ends contradict each other, or because no
history fits.  The second happens only when there is no way at all (`refused_only_without_way`).
The search is greedy: it explains each firing by the first flips that do, never takes an explanation
back, and drops a candidate if a later explanation undoes an earlier one or cannot be written.  It
can afford that because it goes through all sets of flips.  A set that is a way comes up as a
candidate itself, and then its firings need no explanation.
-/

namespace Chronicle.World

open Search (flipAll)

variable {g : Graph} {w : World} {time : Int} {merged : Valuation} {p : Period}
  {F : List Variable}

/-- A set of flips of what is open that no part of an arrival objects to: the joint knowledge with
these flips is consistent by default, under it every firing of the period is, and so is, after some
flips, what the period knows with the start values that it fixes. -/
structure IsWay (g : Graph) (merged : Valuation) (p : Period) (F : List Variable) : Prop where
  sublist : F.Sublist (g.unknownMutables merged)
  consistent : g.isConsistent .latched (flipAll merged F) = .ok true
  fires : ∀ a ∈ p.antecedentList, Arrival.fires g (flipAll merged F) a = .ok true
  known : ∃ q, g.findConsistent .latched ((p.currentState g).update
    (Arrival.startOverrides g p (flipAll merged F)).entries) = .ok (some q)

theorem IsWay.fits (h : IsWay g merged p F) :
    Arrival.Fits g merged p ⟨flipAll merged F, flipAll merged F,
      Arrival.startOverrides g p (flipAll merged F)⟩ := by
  refine Arrival.fits_of_firesByDefault ⟨F, h.sublist, rfl⟩
    (Graph.isConsistent_eq_true_iff.mp h.consistent) ?_ ?_
  · intro a ha
    exact Arrival.fires_eq_true_iff.mp (h.fires a ha)
  · obtain ⟨q, hq⟩ := h.known
    exact Graph.solvable_of_findConsistent hq

/-- **A journey is refused as a logical contradiction only when there is no way.**  If the two ends
do not contradict each other directly, the journey arrives or is refused as a logical contradiction.
It arrives exactly if some history fits, and so it does if some set of flips is a way. -/
theorem refused_only_without_way (hg : g.IsValid) (hl : g.IsLocal) (hw : Reachable g w)
    (ht : w.now < time)
    (hm : g.merge (w.current.endState g) ((w.timeline.period time).startState g) =
      some merged) :
    ∃ report, w.answer (.travel time) = .ok (some report.succeeded) ∧
      (w.next (.travel time)).travelLog = w.travelLog.push report ∧
      (report.verdict = .arrived ∨ report.verdict = .logicalContradiction) ∧
      (report.verdict = .arrived ↔
        ∃ a : Arrival, a.Fits g merged (w.timeline.period time)) ∧
      ((∃ F, IsWay g merged (w.timeline.period time) F) → report.verdict = .arrived) := by
  have hwell := hg.wellFormed
  obtain rfl := hw.graph_eq hwell
  have hfirings := hw.forall_period hwell (Period.kept_firingsDeclared w.graph) time
  rcases Arrival.find_cases hwell hl (hfirings.declared hwell) merged with
    ⟨arrival, hf, hfits⟩ | ⟨hf, hnone⟩
  · obtain ⟨hanswer, hnext⟩ := answer_travel (travel_run_arrived ht hm hf hwell)
    exact ⟨⟨w.now, time, .arrived, false, [], arrival.overrides⟩, hanswer,
      congrArg World.travelLog hnext, Or.inl rfl, ⟨fun _ => ⟨arrival, hfits⟩, fun _ => rfl⟩,
      fun _ => rfl⟩
  · have hrun : (travel time false).run w =
        (.ok false, w.logged ⟨w.now, time, .logicalContradiction, false, [], .empty⟩) := by
      rw [travel_run_forward ht, show w.graph.merge w.leaving (w.started time) = _ from hm]
      dsimp only
      rw [hf]
    obtain ⟨hanswer, hnext⟩ := answer_travel hrun
    refine ⟨⟨w.now, time, .logicalContradiction, false, [], .empty⟩, hanswer,
      congrArg World.travelLog hnext, Or.inr rfl, ⟨nofun, ?_⟩, ?_⟩
    · rintro ⟨a, ha⟩
      exact absurd ha (hnone a)
    · rintro ⟨F, hF⟩
      exact absurd hF.fits (hnone _)

/-- To turn the high bit of the dial off is a way to the alarm. -/
theorem refused_only_without_way_lampSeen :
    ∃ report : TravelReport,
      (lampSeen.next (.travel 0)).travelLog = lampSeen.travelLog.push report ∧
        report.verdict = .arrived := by
  have hm : Graph.clock.merge (lampSeen.current.endState Graph.clock)
      ((lampSeen.timeline.period 0).startState Graph.clock) =
        some (.ofList [("lamp", false), ("dial_bit0", false)]) := by
    decide +kernel
  have hknown : Graph.clock.findConsistent .latched
      (((lampSeen.timeline.period 0).currentState Graph.clock).update
        (Arrival.startOverrides Graph.clock (lampSeen.timeline.period 0)
          (flipAll (.ofList [("lamp", false), ("dial_bit0", false)]) [Graph.Clock.high])).entries) =
      .ok (some (.ofList [("dial_bit0", true), ("alarm", true), ("dial_bit1", false)])) := by
    decide +kernel
  obtain ⟨report, _, hlog, _, _, hway⟩ := refused_only_without_way Graph.clock_isValid
    Graph.clock_isLocal lampSeen_reachable (by decide +kernel) hm
  refine ⟨report, hlog, hway ⟨[Graph.Clock.high], ?_, ?_, ?_, _, hknown⟩⟩
  · exact List.singleton_sublist.mpr
      (Graph.mem_unknownMutables_iff.mpr ⟨by simp [Graph.clock], rfl, by decide⟩)
  · decide +kernel
  · decide +kernel

end Chronicle.World
