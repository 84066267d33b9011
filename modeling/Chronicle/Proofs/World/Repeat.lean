import Chronicle.Proofs.World.Permanent
import Chronicle.Proofs.World.Return

/-!
# An arrival can be repeated

Where no latch has fired, a history is its candidate, and all that it says of what was not known is
news: the overrides of the arrival and the knowledge that it was found from make it up
(`Fits.get?_resolved_of_silent`).  So whoever goes back and comes again has the whole history for
knowledge.  The search then stops at the knowledge itself, and there is nothing left to override
(`Fits.find_again`).
-/

namespace Chronicle

namespace Arrival

variable {g : Graph} {p : Period} {known merged r : Valuation} {a : Arrival} {v : Variable}

theorem Explains.eq_of_nil {c : Valuation} (h : Explains g [] c r) : r = c := by
  cases h
  rfl

theorem Fits.resolved_eq_candidate (h : a.Fits g merged p) (hsilent : p.antecedentList = []) :
    a.resolved = a.candidate :=
  (hsilent ▸ h.explained).eq_of_nil

section

variable (hg : g.WellFormed) (h : a.Fits g merged p)

include hg h

theorem Fits.filter_resolved_of_open (hv : v ∈ g.declared)
    (ho : (p.overridden a.overrides.entries).canOverride v.name = true) :
    (a.resolved.get? v.name).filter (isNews v) = none := by
  cases hover : a.overrides.get? v.name with
  | some b =>
    rw [Period.canOverride_overridden_some hover] at ho
    cases ho
  | none =>
    rw [Period.canOverride_overridden_none hover] at ho
    rw [← hover, h.overrides, get?_startOverrides hg hv, if_pos ho]

/-- **Nothing is left to override** by the history whose overrides have been made. -/
theorem Fits.startOverrides_again (hr : ∀ name, r.get? name = a.resolved.get? name) :
    startOverrides g (p.overridden a.overrides.entries) r = .empty := by
  refine Period.collect_eq_empty ?_
  intro v hv
  split
  next ho => rw [hr, h.filter_resolved_of_open hg hv ho]
  next => rfl

variable (hp : p.Noted g) (hsilent : p.antecedentList = []) (hk : g.IsKnowledge known)
  (hm : g.merge known (p.startState g) = some merged)

include hp hsilent hk hm

/-- **All that a history says** where no latch has fired: its overrides, and what was known. -/
theorem Fits.get?_resolved_of_silent (hv : v ∈ g.declared) :
    a.resolved.get? v.name = (a.overrides.get? v.name).or (merged.get? v.name) := by
  cases ho : a.overrides.get? v.name with
  | some b =>
    obtain ⟨_, _, _, _, hb, _⟩ := startOverrides_eq_some hg (h.overrides ▸ ho)
    rw [hb, Option.some_or]
  | none =>
    rw [Option.none_or, h.resolved_eq_candidate hsilent]
    cases hmerged : merged.get? v.name with
    | some b => exact h.candidate_extends hg v.name b hmerged
    | none =>
      by_contra hsome
      obtain ⟨b, hb⟩ := Option.ne_none_iff_exists'.mp hsome
      rcases h.flipped.get?_eq_some hg hb with hknown | ⟨u, hu, hmut, _, he, rfl⟩
      · rw [hmerged] at hknown
        cases hknown
      · -- It was flipped, so its start is open and the flip is an override.
        obtain rfl := hg.eq_of_name hu hv he
        have hstart : (p.record u.name).knownStart = none := by
          by_contra hfixed
          obtain ⟨c, hc⟩ := Option.ne_none_iff_exists'.mp hfixed
          rw [(Graph.merge_extends hk hm).2 _ _
            ((Period.get?_startState hg.nodup hu).trans hc)] at hmerged
          cases hmerged
        have hover : a.overrides.get? u.name = some (!u.default) := by
          rw [h.overrides, get?_startOverrides hg hu, if_pos (hp.canOverride hu hmut hstart),
            h.resolved_eq_candidate hsilent, hb]
          simp [isNews, hmut]
        rw [ho] at hover
        cases hover

/-- **Whoever comes again knows the history already.** -/
theorem Fits.merge_overridden :
    ∃ merged', g.merge known ((p.overridden a.overrides.entries).startState g) = some merged' ∧
      ∀ name, merged'.get? name = a.resolved.get? name := by
  have hrespects : a.Respects p known := by
    intro name b hb _
    rw [h.resolved_eq_candidate hsilent]
    exact h.candidate_extends hg _ _ ((Graph.merge_extends hk hm).1 _ _ hb)
  have hagree := (conflicts_overridden_eq_nil_iff hg hk hm h).mpr hrespects
  have hmerge := Graph.merge_eq_some_iff.mpr ⟨hagree, rfl⟩
  have hstarts := Period.isKnowledge_startState hg (p.overridden a.overrides.entries)
  have hresolved := h.isKnowledge_resolved hg
    (Graph.isKnowledge_of_merge hk (Period.isKnowledge_startState hg p) hm)
  refine ⟨_, hmerge, (hk.update hstarts).get?_eq hresolved ?_⟩
  intro v hv
  obtain ⟨_, rfl⟩ := Graph.merge_eq_some_iff.mp hm
  rw [h.get?_resolved_of_silent hg hp hsilent hk hm hv, Table.get?_update_entries,
    Table.get?_update_entries, Period.get?_startState_overridden hg.nodup hv, Option.or_assoc]

/-- **Whoever comes again stops at what is known**, and overrides nothing. -/
theorem Fits.find_again (hl : g.IsLocal) :
    ∃ merged', g.merge known ((p.overridden a.overrides.entries).startState g) = some merged' ∧
      find g merged' (p.overridden a.overrides.entries) =
        .ok (some ⟨merged', merged', .empty⟩) := by
  obtain ⟨merged', hmerge, hsame⟩ := h.merge_overridden hg hp hsilent hk hm
  have hresolved := h.isKnowledge_resolved hg
    (Graph.isKnowledge_of_merge hk (Period.isKnowledge_startState hg p) hm)
  have hempty := h.startOverrides_again hg hsame
  have hfires : ∀ d ∈ (p.overridden a.overrides.entries).antecedentList,
      FiresByDefault g merged' d := by
    intro d hd
    rw [Period.antecedentList, Period.antecedents_overridden, ← Period.antecedentList,
      hsilent] at hd
    cases hd
  have hsolvable : g.Solvable .latched
      (((p.overridden a.overrides.entries).currentState g).update
        (startOverrides g (p.overridden a.overrides.entries) merged').entries) := by
    rw [hempty]
    exact (Graph.solvable_iff hg hl (Period.isKnowledge_currentState hg _)).mpr
      (h.exists_isModel hg hl hp.toAligned)
  have hfits := fits_of_firesByDefault (.refl g merged')
    (h.consistent_resolved.congr hg hl hresolved fun name => (hsame name).symm) hfires hsolvable
  rw [hempty] at hfits
  exact ⟨merged', hmerge, find_of_fits_self hg hl hfits rfl⟩

end

end Arrival

namespace World

variable {g : Graph} {w : World} {time : Int}

theorem period_arrived_of_ne (w : World) {time other : Int} (hne : time ≠ other) (o : Valuation) :
    (w.arrived time o).timeline.period other = w.timeline.period other := by
  refine period_setPeriod_of_ne ?_
  rw [Period.time_overridden, Timeline.time_period]
  exact hne

/-- Whoever goes back is where he set out, and leaves the periods as the arrival left them. -/
theorem after_there_and_back {o : Valuation} {r : TravelReport} (ht : w.now < time)
    (h : w.next (.travel time) = (w.arrived time o).logged r) :
    (w.next (.travel time)).answer (.travel w.now) = .ok (some true) ∧
      (w.after [.travel time, .travel w.now]).graph = w.graph ∧
      (w.after [.travel time, .travel w.now]).now = w.now ∧
      ∀ other, (w.after [.travel time, .travel w.now]).timeline.period other =
        (w.next (.travel time)).timeline.period other := by
  have hback : w.now < (w.next (.travel time)).now := by
    rw [h]
    exact ht
  obtain ⟨hanswer, hreturned⟩ := next_travel_back hback
  refine ⟨hanswer, ?_⟩
  rw [after, List.foldl_cons, List.foldl_cons, List.foldl_nil, hreturned]
  refine ⟨?_, rfl, period_moved _ w.now⟩
  rw [h]
  rfl

/-- **An arrival can be repeated.**  In a run in which every write observes, let a journey arrive in
a later period in which no latch has fired.  To go back and to make it again succeeds, overrides
nothing, and leaves every period as the first arrival left it. -/
theorem arrival_repeats (hg : g.IsValid) (hl : g.IsLocal) (hw : Watched g w) (ht : w.now < time)
    (h : w.answer (.travel time) = .ok (some true))
    (hsilent : (w.timeline.period time).antecedentList = []) :
    (w.next (.travel time)).answer (.travel w.now) = .ok (some true) ∧
    (w.after [.travel time, .travel w.now]).answer (.travel time) = .ok (some true) ∧
    (w.after [.travel time, .travel w.now, .travel time]).travelLog =
      (w.after [.travel time, .travel w.now]).travelLog.push
        ⟨w.now, time, .arrived, false, [], .empty⟩ ∧
    (w.after [.travel time, .travel w.now, .travel time]).now = time ∧
    ∀ other, (w.after [.travel time, .travel w.now, .travel time]).timeline.period other =
      (w.next (.travel time)).timeline.period other := by
  have hwell := hg.wellFormed
  obtain rfl := hw.reachable.graph_eq hwell
  obtain ⟨merged, arrival, hmerge, hfind, hnext⟩ := arrived_of_answer hwell ht h
  have hfits := Arrival.fits_of_find hfind
  obtain ⟨merged', hmerge', hfind'⟩ := hfits.find_again hwell (hw.noted hwell time) hsilent
    (Period.isKnowledge_endState hwell w.current) hmerge hl
  obtain ⟨hanswer, hgraph, hnow, hperiods⟩ := after_there_and_back ht hnext
  have hagain : w.after [.travel time, .travel w.now, .travel time] =
      (w.after [.travel time, .travel w.now]).next (.travel time) := rfl
  rw [hagain]
  generalize w.after [.travel time, .travel w.now] = here at hgraph hnow hperiods ⊢
  have hcurrent : here.current = w.current := by
    rw [current, hnow, hperiods, hnext]
    exact period_arrived_of_ne w (by omega) arrival.overrides
  have hdestination : here.timeline.period time =
      (w.timeline.period time).overridden arrival.overrides.entries := by
    rw [hperiods, hnext]
    exact current_arrived w time arrival.overrides _
  have hjoint : here.graph.merge here.leaving (here.started time) = some merged' := by
    rw [leaving, started, hgraph, hcurrent, hdestination]
    exact hmerge'
  have hfound : Arrival.find here.graph merged' (here.timeline.period time) =
      .ok (some ⟨merged', merged', .empty⟩) := by
    rw [hgraph, hdestination]
    exact hfind'
  obtain ⟨hsecond, hend⟩ :=
    answer_travel (travel_run_arrived (hnow ▸ ht) hjoint hfound (hgraph ▸ hwell))
  rw [hend, hnow]
  refine ⟨hanswer, hsecond, rfl, rfl, ?_⟩
  intro other
  exact (period_moved here time other).trans (hperiods other)

/-- Tomorrow is told of the broken glass once. -/
theorem arrival_repeats_glassBroken :
    glassBroken.answer (.travel 1) = .ok (some true) ∧
      (glassBroken.after [.travel 1, .travel 0]).answer (.travel 1) = .ok (some true) ∧
      (glassBroken.after [.travel 1, .travel 0, .travel 1]).timeline.period 1 =
        (glassBroken.next (.travel 1)).timeline.period 1 := by
  have hanswer : glassBroken.answer (.travel 1) = .ok (some true) := by decide +kernel
  have hnow : glassBroken.now = 0 := by decide +kernel
  obtain ⟨_, hagain, _, _, hsame⟩ := arrival_repeats Graph.gauge_isValid Graph.gauge_isLocal
    glassBroken_watched (hnow ▸ by decide) hanswer (by decide +kernel)
  rw [hnow] at hagain hsame
  exact ⟨hanswer, hagain, hsame 1⟩

end World

end Chronicle
