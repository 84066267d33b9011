import Chronicle.Proofs.Arrival.Correct
import Chronicle.Proofs.World.Arrive
import Chronicle.Proofs.World.Operate

/-!
# After an arrival everything can be read

A history fits its destination only if what the period knows is consistent with the overrides.  That
is checked before anything is written, on what is known and the overrides side by side; the
overrides are then written as start values, which count only where nothing has changed since.  But
an open start of a mutable or a latch means that nothing has, so the two are the same
(`Fits.peek_overridden`).  One solution of what is known then answers for every variable
(`coherent_after_arrival`).
-/

namespace Chronicle

namespace Arrival

variable {g : Graph} {p : Period} {merged : Valuation} {a : Arrival} {v : Variable} {b : Bool}

theorem isDerived_of_isNews (h : isNews v b = true) : v.isDerived = false := by
  unfold isNews at h
  split at h
  next hm => exact Variable.isDerived_of_isMutable hm
  next => exact Variable.isDerived_of_isTriggered (Bool.and_eq_true_iff.mp h).1

section

variable (hg : g.WellFormed) (h : a.Fits g merged p)

include hg h

theorem Fits.peek_eq_none {name : String} (hn : a.overrides.contains name = true) :
    name ∈ g.names ∧ p.peek name = none := by
  obtain ⟨b, hb⟩ := Table.contains_iff.mp hn
  obtain ⟨v, hv, rfl, ho, _⟩ := startOverrides_eq_some hg (h.overrides ▸ hb)
  exact ⟨List.mem_map_of_mem hv, Period.peek_of_canOverride ho⟩

/-- **What the destination knows after an arrival** is what it knew, and the overrides. -/
theorem Fits.peek_overridden (ha : p.Aligned g) (hv : v ∈ g.declared) :
    (p.overridden a.overrides.entries).peek v.name =
      (p.peek v.name).or (a.overrides.get? v.name) := by
  refine ha.peek_overridden (h.accepts hg) hv ?_
  intro b hb
  obtain ⟨u, hu, he, _, _, hnews⟩ := startOverrides_eq_some hg (h.overrides ▸ hb)
  obtain rfl := hg.eq_of_name hu hv he
  exact isDerived_of_isNews hnews

/-- **What the destination knows after an arrival has a model**, for that was asked of the history
that was found. -/
theorem Fits.exists_isModel (hl : g.IsLocal) (ha : p.Aligned g) :
    ∃ M, g.IsModel .latched ((p.overridden a.overrides.entries).currentState g) M := by
  have hknown := Period.isKnowledge_currentState hg p
  have hoverrides : g.IsKnowledge a.overrides := by
    rw [h.overrides]
    exact isKnowledge_startOverrides hg p a.resolved
  have hjoint := hknown.update hoverrides
  obtain ⟨M, hM⟩ := (Graph.solvable_iff hg hl hjoint).mp h.known
  refine ⟨M, hM.congr ?_⟩
  refine hjoint.get?_eq (Period.isKnowledge_currentState hg _) ?_
  intro v hv
  rw [Table.get?_update_entries, Period.get?_currentState hg.nodup hv,
    Period.get?_currentState hg.nodup hv, h.peek_overridden hg ha hv]
  -- On no name do both have a value, so it does not matter which of them goes first.
  cases hn : a.overrides.get? v.name with
  | none => rw [Option.none_or, Option.or_none]
  | some b =>
    obtain ⟨_, hnone⟩ := h.peek_eq_none hg (Table.contains_iff.mpr ⟨b, hn⟩)
    rw [hnone, Option.some_or, Option.none_or]

end

end Arrival

namespace World

variable {g : Graph} {w : World} {time : Int}

/-- **After an arrival everything can be read, and fits together.**  The destination knows what it
knew and the reported overrides, none of which it knew before.  There is one model of that, which
answers every peek: it extends what is known, gives every derived variable the value of its rule and
every latch of which nothing is known its firing, lets no latch fire that is known false, and keeps
every dial in range. -/
theorem coherent_after_arrival (hg : g.IsValid) (hl : g.IsLocal) (hw : Reachable g w)
    (ht : w.now < time) (h : w.answer (.travel time) = .ok (some true)) :
    ∃ report model, (w.next (.travel time)).travelLog = w.travelLog.push report ∧
      report.verdict = .arrived ∧ (w.next (.travel time)).now = time ∧
      (∀ name, report.overrides.contains name = true →
        name ∈ g.names ∧ (w.timeline.period time).peek name = none) ∧
      (∀ v ∈ g.declared, (w.next (.travel time)).current.peek v.name =
        ((w.timeline.period time).peek v.name).or (report.overrides.get? v.name)) ∧
      g.IsModel .latched (w.next (.travel time)).knowledge model ∧
      ∀ v ∈ g.declared, ∃ b, model.get? v.name = some b ∧
        (w.next (.travel time)).answer (.peek v.symbol) = .ok (some b) := by
  have hwell := hg.wellFormed
  obtain rfl := hw.graph_eq hwell
  obtain ⟨merged, arrival, _, hfind, hnext⟩ := arrived_of_answer hwell ht h
  have hfits := Arrival.fits_of_find hfind
  have haligned := hw.forall_period hwell (Period.kept_aligned hwell) time
  have hgraph : (w.next (.travel time)).graph = w.graph := by
    rw [hnext]
    rfl
  have hcurrent : (w.next (.travel time)).current =
      (w.timeline.period time).overridden arrival.overrides.entries := by
    rw [hnext, current_arrived]
  obtain ⟨M, hM⟩ := hfits.exists_isModel hwell hl haligned
  rw [← hcurrent] at hM
  obtain ⟨model, hsolve, hmodel⟩ :=
    Graph.exists_solve hwell hl (Period.isKnowledge_currentState hwell _) hM
  refine ⟨⟨w.now, time, .arrived, false, [], arrival.overrides⟩, model, ?_, rfl, ?_, ?_, ?_, ?_, ?_⟩
  · rw [hnext]
    rfl
  · rw [hnext]
    rfl
  · intro name hn
    exact hfits.peek_eq_none hwell hn
  · intro v hv
    rw [hcurrent]
    exact hfits.peek_overridden hwell haligned hv
  · rw [knowledge, hgraph]
    exact hmodel
  · intro v hv
    obtain ⟨b, hb⟩ := Option.isSome_iff_exists.mp
      ((hmodel.total v.name).mpr (List.mem_map_of_mem hv))
    refine ⟨b, hb, answer_peek_of_solve (hgraph ▸ hwell) ?_ ?_ (hgraph ▸ hv) hb⟩
    · rw [knowledge, hgraph]
      exact hsolve
    · rw [knowledge, hgraph]
      exact hmodel.extends_known

/-- After the alarm has been explained everything reads, the lamp among it. -/
theorem coherent_after_arrival_lampSeen :
    lampSeen.now < 0 ∧ lampSeen.answer (.travel 0) = .ok (some true) ∧
      ∃ b, (lampSeen.next (.travel 0)).answer (.peek Graph.Clock.lamp.symbol) = .ok (some b) := by
  have hnow : lampSeen.now < 0 := by decide +kernel
  have hanswer : lampSeen.answer (.travel 0) = .ok (some true) := by decide +kernel
  obtain ⟨_, _, _, _, _, _, _, _, hreads⟩ := coherent_after_arrival Graph.clock_isValid
    Graph.clock_isLocal lampSeen_reachable hnow hanswer
  obtain ⟨b, _, hb⟩ := hreads Graph.Clock.lamp (by simp [Graph.clock])
  exact ⟨hnow, hanswer, b, hb⟩

end World

end Chronicle
