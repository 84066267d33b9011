import Chronicle.Proofs.World.DryRun

/-!
# What an arrival overrides

An arrival fixes start values of its destination.  They can contradict what the departing period
knew: the replay of a firing flips mutables that the firing does not depend on, and these it may
take from their known values (`conflicts_of_arrival`).  Nowhere else do the two ends contradict
each other, and nowhere at all if every firing at the destination shows what is known.
-/

namespace Chronicle

namespace Arrival

variable {g : Graph} {p : Period} {known merged : Valuation} {a : Arrival} {name : String}

/-- The replay leaves every value that is known elsewhere and whose start is open in the period. -/
def Respects (p : Period) (known : Valuation) (a : Arrival) : Prop :=
  ∀ name b, known.get? name = some b → p.canOverride name = true → a.resolved.get? name = some b

theorem get?_merged (hg : g.WellFormed) (hm : g.merge known (p.startState g) = some merged)
    {v : Variable} (hv : v ∈ g.declared) (ho : p.canOverride v.name = true) :
    merged.get? v.name = known.get? v.name := by
  obtain ⟨_, rfl⟩ := Graph.merge_eq_some_iff.mp hm
  have hstart : (p.startState g).get? v.name = none := by
    rw [Period.startState, Period.get?_collect_name hg.nodup _ hv]
    exact (Period.canOverride_iff.mp ho).1
  rw [Table.get?_update_entries, hstart, Option.none_or]

variable (hg : g.WellFormed) (hk : g.IsKnowledge known)
  (hm : g.merge known (p.startState g) = some merged) (h : a.Fits g merged p)

include hg hk hm h

/-- **Where an arrival contradicts** what is known elsewhere: at an open start, of which the replay
has another value than is known. -/
theorem mem_conflicts_overridden_iff :
    name ∈ g.conflicts known ((p.overridden a.overrides.entries).startState g) ↔
      ∃ b, known.get? name = some b ∧ p.canOverride name = true ∧
        a.resolved.get? name ≠ some b := by
  rw [Graph.mem_conflicts_iff]
  refine ⟨?_, ?_⟩
  · rintro ⟨hn, b, c, hb, hc, hne⟩
    obtain ⟨v, hv, rfl⟩ := List.mem_map.mp hn
    rw [Period.get?_startState_overridden hg.nodup hv] at hc
    rcases Option.or_eq_some_iff.mp hc with hc | ⟨_, hc⟩
    · rw [h.overrides] at hc
      obtain ⟨_, _, _, ho, hr, _⟩ := startOverrides_eq_some hg hc
      refine ⟨b, hb, ho, ?_⟩
      rw [hr]
      intro he
      exact hne (Option.some.inj he).symm
    · -- Without an override both ends had these values before, and did not contradict each other.
      have hbefore : v.name ∈ g.conflicts known (p.startState g) :=
        Graph.mem_conflicts_iff.mpr ⟨hn, b, c, hb, hc, hne⟩
      rw [(Graph.merge_eq_some_iff.mp hm).1] at hbefore
      cases hbefore
  · rintro ⟨b, hb, ho, hr⟩
    have hn : name ∈ g.names := hk name (Table.contains_iff.mpr ⟨b, hb⟩)
    obtain ⟨v, hv, rfl⟩ := List.mem_map.mp hn
    have hcandidate : a.candidate.get? v.name = some b := by
      apply h.candidate_extends hg
      rw [get?_merged hg hm hv ho, hb]
    rcases h.get?_resolved hg v.name with hsame | ⟨u, hu, he, hmut, hflip, _⟩
    · rw [hsame] at hr
      exact absurd hcandidate hr
    · obtain rfl := hg.eq_of_name hu hv he
      have hover : a.overrides.get? u.name = some (!u.default) := by
        rw [h.overrides, get?_startOverrides hg hu, if_pos ho, hflip]
        simp [isNews, hmut]
      refine ⟨hn, b, !u.default, hb, ?_, ?_⟩
      · rw [Period.get?_startState_overridden hg.nodup hu, hover, Option.some_or]
      · rintro rfl
        exact hr hflip

theorem conflicts_overridden_eq_nil_iff :
    g.conflicts known ((p.overridden a.overrides.entries).startState g) = [] ↔
      a.Respects p known := by
  rw [List.eq_nil_iff_forall_not_mem]
  refine ⟨?_, ?_⟩
  · intro hnone name b hb ho
    by_contra hr
    exact hnone name ((mem_conflicts_overridden_iff hg hk hm h).mpr ⟨b, hb, ho, hr⟩)
  · intro hall name hn
    obtain ⟨b, hb, ho, hr⟩ := (mem_conflicts_overridden_iff hg hk hm h).mp hn
    exact hr (hall name b hb ho)

/-- What is contradicted is a mutable known at its default, and the context of some firing does not
show it. -/
theorem cause_of_conflict
    (hn : name ∈ g.conflicts known ((p.overridden a.overrides.entries).startState g)) :
    ∃ v ∈ g.declared, v.name = name ∧ v.isMutable = true ∧ known.get? name = some v.default ∧
      a.overrides.get? name = some (!v.default) ∧ ∃ d ∈ p.antecedentList, ¬ Shows g d name := by
  obtain ⟨b, hb, ho, hr⟩ := (mem_conflicts_overridden_iff hg hk hm h).mp hn
  obtain ⟨w, hw, rfl⟩ := List.mem_map.mp (hk name (Table.contains_iff.mpr ⟨b, hb⟩))
  have hcandidate : a.candidate.get? w.name = some b := by
    apply h.candidate_extends hg
    rw [get?_merged hg hm hw ho, hb]
  rcases h.get?_resolved hg w.name with hsame | ⟨v, hv, he, hmut, hflip, hshow⟩
  · rw [hsame] at hr
    exact absurd hcandidate hr
  · have hdefault : b = v.default := by
      rw [hflip] at hr
      cases b <;> cases hd : v.default <;> simp_all
    refine ⟨v, hv, he, hmut, hdefault ▸ hb, ?_, hshow (Table.contains_iff.mpr ⟨b, hcandidate⟩)⟩
    obtain rfl := hg.eq_of_name hv hw he
    rw [h.overrides, get?_startOverrides hg hv, if_pos ho, hflip]
    simp [isNews, hmut]

end Arrival

namespace World

variable {g : Graph} {w : World} {time : Int}

/-- **An arrival contradicts the departing period exactly where its replay rewrites it.**  After a
journey that has arrived, the two ends agree if and only if the history that was found leaves what
was known and was still open at the destination.  What it does not leave is a mutable known at its
default, which is overridden to the opposite, and which some firing at the destination does not
depend on. -/
theorem conflicts_of_arrival (hg : g.IsValid) (hw : Reachable g w) (ht : w.now < time)
    (h : w.answer (.travel time) = .ok (some true)) :
    ∃ merged arrival,
      g.merge (w.current.endState g) ((w.timeline.period time).startState g) = some merged ∧
      Arrival.find g merged (w.timeline.period time) = .ok (some arrival) ∧
      (w.next (.travel time)).now = time ∧
      (g.conflicts (w.current.endState g) ((w.next (.travel time)).current.startState g) = [] ↔
        arrival.Respects (w.timeline.period time) (w.current.endState g)) ∧
      ∀ name ∈ g.conflicts (w.current.endState g)
          ((w.next (.travel time)).current.startState g),
        ∃ v ∈ g.declared, v.name = name ∧ v.isMutable = true ∧
          (w.current.endState g).get? name = some v.default ∧
          arrival.overrides.get? name = some (!v.default) ∧
          ∃ d ∈ (w.timeline.period time).antecedentList, ¬ Arrival.Shows g d name := by
  have hwell := hg.wellFormed
  obtain rfl := hw.graph_eq hwell
  obtain ⟨merged, arrival, hm, hf, hnext⟩ := arrived_of_answer hwell ht h
  have hk : w.graph.IsKnowledge (w.current.endState w.graph) := isKnowledge_collect hwell _
  have hfits := Arrival.fits_of_find hf
  refine ⟨merged, arrival, hm, hf, ?_, ?_, ?_⟩
  · rw [hnext]
    rfl
  · rw [hnext, current_arrived]
    exact Arrival.conflicts_overridden_eq_nil_iff hwell hk hm hfits
  · intro name hn
    rw [hnext, current_arrived] at hn
    exact Arrival.cause_of_conflict hwell hk hm hfits hn

/-- The lamp that was seen dark has been lit on arrival: the alarm does not depend on it. -/
theorem conflicts_of_arrival_lampSeen :
    lampSeen.now < 0 ∧ lampSeen.answer (.travel 0) = .ok (some true) ∧
      (lampSeen.next (.travel 0)).now = 0 ∧
      ∃ d ∈ (lampSeen.timeline.period 0).antecedentList, ¬ Arrival.Shows Graph.clock d "lamp" := by
  have hnow : lampSeen.now < 0 := by decide +kernel
  have hanswer : lampSeen.answer (.travel 0) = .ok (some true) := by decide +kernel
  obtain ⟨_, _, _, _, harrived, _, hcause⟩ :=
    conflicts_of_arrival Graph.clock_isValid lampSeen_reachable hnow hanswer
  refine ⟨hnow, hanswer, harrived, ?_⟩
  obtain ⟨_, _, _, _, _, _, hshow⟩ := hcause "lamp" (by decide +kernel)
  exact hshow

/-- An arrival can contradict the departing period. -/
theorem lampSeen_contradicted :
    ¬ ∀ (g : Graph) (w : World) (time : Int), g.IsValid → Reachable g w → w.now < time →
      w.answer (.travel time) = .ok (some true) →
      g.conflicts (w.current.endState g) ((w.next (.travel time)).current.startState g) = [] := by
  intro hall
  have hnone := hall Graph.clock lampSeen 0 Graph.clock_isValid lampSeen_reachable
    (by decide +kernel) (by decide +kernel)
  have hlamp : Graph.clock.conflicts (lampSeen.current.endState Graph.clock)
      ((lampSeen.next (.travel 0)).current.startState Graph.clock) = ["lamp"] := by
    decide +kernel
  rw [hlamp] at hnone
  cases hnone

end World

end Chronicle
