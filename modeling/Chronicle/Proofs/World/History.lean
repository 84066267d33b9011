import Chronicle.Proofs.Period.Latch
import Chronicle.Proofs.Period.Patch
import Chronicle.Proofs.World.DryRun
import Chronicle.Proofs.World.Operate

/-!
# History is patched, never rewritten

A call works at one time, the one at which it is made (`exists_evolves_timeline`): a journey edits
its destination before it departs.  At other times all that it does is to fix start values that were
open (`Change.patched`).  No step removes a period (`Step.mem_times`), or takes back what is known
of a start (`knownStart_of_path`) or a firing (`peek_latch_of_path`).
-/

namespace Chronicle.World

open Relation (ReflTransGen)

variable {g : Graph} {w w' : World} {time : Int} {v : Variable} {b : Bool}

/-- **Elsewhere a change patches**, if it does anything at all. -/
theorem Change.patched (h : Change w w') (hne : time ≠ w.now) :
    (w.timeline.period time).Patched (w'.timeline.period time) := by
  have hnow : w.current.time = w.now := w.timeline.time_period w.now
  have hhere : ∀ p, p.time = w.now → (w.timeline.period time).Patched
      ((w.setPeriod p).timeline.period time) := by
    intro p hp
    show Period.Patched _ ((w.timeline.put p).period time)
    rw [Timeline.period_put, if_neg]
    · exact .refl _
    · rw [hp]
      exact hne.symm
  cases h with
  | observed v b _ _ => exact hhere _ hnow
  | modified v b _ _ => exact hhere _ ((Period.time_modified _ _ _).trans hnow)
  | fired t _ _ _ => exact hhere _ ((Period.time_fired _ _).trans hnow)
  | overridden other o ho =>
    show Period.Patched _ ((w.timeline.put _).period time)
    rw [Timeline.period_put, Period.time_overridden, Timeline.time_period]
    split
    next he => exact he ▸ ho.patched
    next => exact .refl _
  | reportedTravel _ => exact .refl _
  | reportedReconciliation _ => exact .refl _
  | configured _ => exact .refl _

theorem patched_of_evolves (h : Evolves w w') (hne : time ≠ w.now) :
    (w.timeline.period time).Patched (w'.timeline.period time) := by
  induction h with
  | refl => exact .refl _
  | tail hbefore hc ih => exact ih.trans (hc.patched (now_eq_of_evolves hbefore ▸ hne))

/-- A journey leaves the world as it was, with one more report at most, or it arrives. -/
theorem next_travel_cases (hg : w.graph.WellFormed) (time : Int) :
    w.next (.travel time) = w ∨ (∃ r, w.next (.travel time) = w.logged r) ∨
      ∃ o r, (w.timeline.period time).Accepts o ∧
        w.next (.travel time) = (w.arrived time o).logged r := by
  rw [next_travel]
  rcases Int.lt_trichotomy time w.now with hlt | rfl | hlt
  · have hempty : (w.timeline.period time).Accepts .empty := by
      intro name hn
      cases hn
    exact Or.inr (Or.inr ⟨.empty, _, hempty, congrArg Prod.snd (travel_run_rewound hlt false)⟩)
  · exact Or.inr (Or.inl ⟨_, congrArg Prod.snd (travel_run_stayed w false)⟩)
  · have hrun := travel_run_forward hlt false
    cases hm : w.graph.merge w.leaving (w.started time) with
    | none =>
      rw [hm] at hrun
      exact Or.inr (Or.inl ⟨_, congrArg Prod.snd hrun⟩)
    | some merged =>
      rw [hm] at hrun
      dsimp only at hrun
      rcases hf : Arrival.find w.graph merged (w.timeline.period time) with e | _ | arrival
      · rw [hf] at hrun
        exact Or.inl (congrArg Prod.snd hrun)
      · rw [hf] at hrun
        exact Or.inr (Or.inl ⟨_, congrArg Prod.snd hrun⟩)
      · exact Or.inr (Or.inr ⟨_, _, (Arrival.fits_of_find hf).accepts hg,
          congrArg Prod.snd (travel_run_arrived hlt hm hf hg)⟩)

theorem exists_corrections_travel (hg : w.graph.WellFormed) (time : Int) :
    ∃ w', ReflTransGen Correction w w' ∧ (w.next (.travel time)).timeline = w'.timeline := by
  rcases next_travel_cases hg time with hnext | ⟨r, hnext⟩ | ⟨o, r, ho, hnext⟩
  · exact ⟨w, ReflTransGen.refl, by rw [hnext]⟩
  · exact ⟨w, ReflTransGen.refl, by rw [hnext]; rfl⟩
  · exact ⟨_, ReflTransGen.single (.overridden time o ho), by rw [hnext]; rfl⟩

/-- **A call works at the time at which it is made.** -/
theorem exists_evolves_timeline (hg : w.graph.WellFormed) (c : Call) :
    ∃ w', Evolves w w' ∧ (w.next c).timeline = w'.timeline := by
  by_cases hc : ∃ time, c = .travel time
  · obtain ⟨time, rfl⟩ := hc
    obtain ⟨w', hw, htimeline⟩ := exists_corrections_travel hg time
    exact ⟨w', evolves_of_aftermath (aftermath_of_corrections hw), htimeline⟩
  · exact ⟨w.next c, evolves_next hg (not_exists.mp hc), rfl⟩

/-! ### Along a path -/

theorem Step.mem_times (h : Step w w') (ht : time ∈ w.timeline.times) :
    time ∈ w'.timeline.times := by
  have hput : ∀ p, time ∈ (w.timeline.put p).times :=
    fun _ => Timeline.mem_times_put.mpr (Or.inr ht)
  cases h with
  | departed _ => exact ht
  | change hc => cases hc <;> first | exact hput _ | exact ht

theorem mem_times_of_path (h : Path w w') (ht : time ∈ w.timeline.times) :
    time ∈ w'.timeline.times := by
  induction h with
  | refl => exact ht
  | tail _ hs ih => exact hs.mem_times ih

theorem ascending_of_path (h : Path w w') (hw : w.timeline.Ascending) : w'.timeline.Ascending := by
  induction h with
  | refl => exact hw
  | tail _ hs ih =>
    cases hs with
    | departed _ => exact ih
    | change hc => cases hc <;> first | exact ih.put _ | exact ih

theorem Reachable.ascending (hg : g.WellFormed) (h : Reachable g w) : w.timeline.Ascending := by
  obtain ⟨settings, time?, hpath⟩ := h.path hg
  exact ascending_of_path hpath (List.pairwise_singleton _ _)

theorem now_mem_times_next (hg : w.graph.WellFormed) (h : w.now ∈ w.timeline.times) (c : Call) :
    (w.next c).now ∈ (w.next c).timeline.times := by
  by_cases hc : ∃ time, c = .travel time
  · obtain ⟨time, rfl⟩ := hc
    rcases next_travel_cases hg time with hnext | ⟨r, hnext⟩ | ⟨o, r, _, hnext⟩
    · rw [hnext]
      exact h
    · rw [hnext]
      exact h
    · rw [hnext]
      refine Timeline.mem_times_put.mpr (Or.inl ?_)
      rw [Period.time_overridden, Timeline.time_period]
      rfl
  · have hevolves := evolves_next hg (not_exists.mp hc)
    rw [now_eq_of_evolves hevolves]
    exact mem_times_of_path (path_of_evolves hevolves) h

theorem Reachable.now_mem_times (hg : g.WellFormed) (h : Reachable g w) :
    w.now ∈ w.timeline.times := by
  obtain ⟨settings, time?, calls, rfl⟩ := h
  suffices hall : ∀ w₀ : World, w₀.graph = g → w₀.now ∈ w₀.timeline.times →
      (w₀.after calls).now ∈ (w₀.after calls).timeline.times from
    hall _ rfl (List.mem_singleton.mpr rfl)
  intro w₀ hgraph hstart
  induction calls generalizing w₀ with
  | nil => exact hstart
  | cons c rest ih =>
    have hwell : w₀.graph.WellFormed := hgraph ▸ hg
    exact ih _ ((graph_next hwell c).trans hgraph) (now_mem_times_next hwell hstart c)

theorem knownStart_of_path (hg : w.graph.WellFormed) (hv : v ∈ w.graph.declared)
    (ha : (w.timeline.period time).Aligned w.graph)
    (hs : ((w.timeline.period time).record v.name).knownStart = some b) (h : Path w w') :
    ((w'.timeline.period time).record v.name).knownStart = some b := by
  suffices hboth : (w'.timeline.period time).Aligned w.graph ∧
      ((w'.timeline.period time).record v.name).knownStart = some b from hboth.2
  induction h with
  | refl => exact ⟨ha, hs⟩
  | tail hpath hstep ih =>
    have he := graph_eq_of_path hpath ▸ hstep.edited time
    exact ⟨(Period.kept_aligned hg).edited he ih.1, ih.1.knownStart_edited hg he hv ih.2⟩

theorem peek_latch_of_path (hg : w.graph.WellFormed) (h : Path w w') (hv : v ∈ w.graph.declared)
    (hk : v.isTriggered = true) (hp : (w.timeline.period time).peek v.name = some true) :
    (w'.timeline.period time).peek v.name = some true := by
  induction h with
  | refl => exact hp
  | tail hpath hs ih =>
    have hedited := graph_eq_of_path hpath ▸ hs.edited time
    exact hedited.peek_latch hg hv hk ih

theorem peek_latch_of_evolves (hg : w.graph.WellFormed) (h : Evolves w w')
    (hv : v ∈ w.graph.declared) (hk : v.isTriggered = true)
    (hp : w.current.peek v.name = some true) : w'.current.peek v.name = some true := by
  rw [current, now_eq_of_evolves h]
  exact peek_latch_of_path hg (path_of_evolves h) hv hk hp

/-- **History is patched, never rewritten.**  A call changes nothing in a period at another time
than its own but start values that were open, and it fixes these; no period is ever removed; and
what is known of a start is known for good. -/
theorem history_is_patched (hg : g.IsValid) (hw : Reachable g w) :
    (∀ (c : Call) (time : Int), time ≠ w.now →
      (w.timeline.period time).Patched ((w.next c).timeline.period time)) ∧
    (∀ (calls : List Call), ∀ time ∈ w.timeline.times, time ∈ (w.after calls).timeline.times) ∧
    (∀ (calls : List Call) (time : Int), ∀ v ∈ g.declared, ∀ b,
      ((w.timeline.period time).record v.name).knownStart = some b →
      (((w.after calls).timeline.period time).record v.name).knownStart = some b) := by
  have hwell := hg.wellFormed
  obtain rfl := hw.graph_eq hwell
  refine ⟨?_, ?_, ?_⟩
  · intro c time hne
    obtain ⟨w', hevolves, htimeline⟩ := exists_evolves_timeline hwell c
    rw [htimeline]
    exact patched_of_evolves hevolves hne
  · intro calls time ht
    exact mem_times_of_path (path_after hwell calls) ht
  · intro calls time v hv b hs
    have haligned := hw.forall_period hwell (Period.kept_aligned hwell) time
    exact knownStart_of_path hwell hv haligned hs (path_after hwell calls)

/-- The arrival at the alarm patches its period, and the lamp stays seen one tick before. -/
theorem history_is_patched_lampSeen :
    (lampSeen.timeline.period 0).Patched ((lampSeen.next (.travel 0)).timeline.period 0) ∧
      (((lampSeen.after
        [.travel 0, .travel (-1), .write Graph.Clock.lamp.symbol true]).timeline.period
          (-1)).record "lamp").knownStart = some false := by
  obtain ⟨hpatched, _, hstart⟩ := history_is_patched Graph.clock_isValid lampSeen_reachable
  have hlamp : Graph.Clock.lamp ∈ Graph.clock.declared := by simp [Graph.clock]
  exact ⟨hpatched (.travel 0) 0 (by decide), hstart _ (-1) _ hlamp false (by decide +kernel)⟩

end Chronicle.World
