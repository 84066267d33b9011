import Chronicle.Proofs.World.Journey

/-!
# Reachable worlds

Every call leads along a path of steps (`path_next`), so a reachable world is at the end of a path
from a fresh one (`Reachable.path`).  It has the graph that it began with, and in each of its
periods holds whatever a blank period has and changes keep (`Period.Kept`).
-/

namespace Chronicle

/-- A property of periods that holds before the first visit and that no change takes away. -/
structure Period.Kept (g : Graph) (P : Period → Prop) : Prop where
  blank : ∀ time, P (.blank time)
  observed : ∀ p v b, v ∈ g.declared → (∀ c, p.peek v.name = some c → c = b) → P p →
    P (p.observed v.name b)
  modified : ∀ p v b, v ∈ g.declared → v.isMutable = true → P p → P (p.modified g v.name b)
  fired : ∀ p t, t ∈ g.declared → t.isTriggered = true → p.peek t.name ≠ some true → P p →
    P (p.fired g t)
  overridden : ∀ p o, p.Accepts o → P p → P (p.overridden o.entries)

/-- What one step can do to one period. -/
inductive Period.Edited (g : Graph) (p : Period) : Period → Prop
  | untouched : Edited g p p
  | observed (v : Variable) (b : Bool) (hv : v ∈ g.declared)
      (h : ∀ c, p.peek v.name = some c → c = b) : Edited g p (p.observed v.name b)
  | modified (v : Variable) (b : Bool) (hv : v ∈ g.declared) (hm : v.isMutable = true) :
      Edited g p (p.modified g v.name b)
  | fired (t : Variable) (ht : t ∈ g.declared) (hk : t.isTriggered = true)
      (h : p.peek t.name ≠ some true) : Edited g p (p.fired g t)
  | overridden (o : Valuation) (h : p.Accepts o) : Edited g p (p.overridden o.entries)

theorem Period.Kept.edited {g : Graph} {P : Period → Prop} {p q : Period} (hP : Period.Kept g P)
    (h : Period.Edited g p q) (hp : P p) : P q := by
  cases h with
  | untouched => exact hp
  | observed v b hv hb => exact hP.observed p v b hv hb hp
  | modified v b hv hm => exact hP.modified p v b hv hm hp
  | fired t ht hk hb => exact hP.fired p t ht hk hb hp
  | overridden o ho => exact hP.overridden p o ho hp

namespace World

open Relation (ReflTransGen)

variable {g : Graph} {w w' : World} {P : Period → Prop}

/-! ### Calls are paths -/

theorem path_travel (hg : w.graph.WellFormed) (time : Int) :
    Path w ((travel time false).run w).2 := by
  rcases h : w.ending time with e | ⟨verdict, conflicts⟩
  · rw [travel_run_of_ending_error h]
  · obtain ⟨w', _, hrun, _, _, hpath⟩ := travel_run_of_ending hg h false
    rw [hrun]
    exact hpath.trans (path_logged w' _)

/-- **A dry run leaves no trace** but a report. -/
theorem next_canTravel_cases (hg : w.graph.WellFormed) (time : Int) :
    w.next (.canTravel time) = w ∨
      ∃ r : TravelReport, r.dryRun = true ∧ w.next (.canTravel time) = w.logged r := by
  rw [next_canTravel]
  rcases h : w.ending time with e | ⟨verdict, conflicts⟩
  · rw [travel_run_of_ending_error h]
    exact Or.inl rfl
  · obtain ⟨w', overrides, hrun, hsame, _⟩ := travel_run_of_ending hg h true
    rw [hrun, hsame rfl]
    exact Or.inr ⟨⟨w.now, time, verdict, true, conflicts, overrides⟩, rfl, rfl⟩

theorem timeline_canTravel (hg : w.graph.WellFormed) (time : Int) :
    (w.next (.canTravel time)).timeline = w.timeline := by
  rcases next_canTravel_cases hg time with h | ⟨r, _, h⟩
  · rw [h]
  · rw [h]
    rfl

/-- **Every call but a journey stays** at the present time, also if it is refused. -/
theorem evolves_next (hg : w.graph.WellFormed) {c : Call} (hc : ∀ time, c ≠ .travel time) :
    Evolves w (w.next c) := by
  cases c with
  | peek s =>
    refine stays_get_bind (stays_lift_bind ?_)
    intro b _
    exact stays_pure (some b) w
  | read s =>
    show Evolves w ((some <$> World.read s).run w).2
    rw [run_some]
    exact evolves_of_calm (stays_read s w)
  | write s b =>
    refine stays_bind (stays_write hg s b) ?_
    intro _ w' _ _
    exact stays_pure none w'
  | travel time => exact absurd rfl (hc time)
  | canTravel time =>
    rcases next_canTravel_cases hg time with h | ⟨r, _, h⟩
    · rw [h]
    · rw [h]
      exact ReflTransGen.single (.reportedTravel r)
  | assign field d =>
    have hset : Stays Change (configure fun settings => settings.assign field d) w :=
      stays_modify (.configured fun settings => settings.assign field d)
    refine stays_bind hset ?_
    intro _ w' _ _
    exact stays_pure none w'

/-- **Every call leads along a path of steps**, also if it is refused. -/
theorem path_next (hg : w.graph.WellFormed) (c : Call) : Path w (w.next c) := by
  by_cases hc : ∃ time, c = .travel time
  · obtain ⟨time, rfl⟩ := hc
    rw [next_travel]
    exact path_travel hg time
  · exact path_of_evolves (evolves_next hg (not_exists.mp hc))

theorem graph_eq_of_path (h : Path w w') : w'.graph = w.graph := by
  induction h with
  | refl => rfl
  | tail _ hs ih => exact hs.graph_eq.trans ih

theorem graph_next (hg : w.graph.WellFormed) (c : Call) : (w.next c).graph = w.graph :=
  graph_eq_of_path (path_next hg c)

theorem path_after (hg : w.graph.WellFormed) (calls : List Call) : Path w (w.after calls) := by
  induction calls generalizing w with
  | nil => exact ReflTransGen.refl
  | cons c rest ih =>
    have hfirst := path_next hg c
    exact hfirst.trans (ih (graph_eq_of_path hfirst ▸ hg))

/-! ### What reachable worlds have -/

theorem isKnowledge_collect (hg : g.WellFormed) (view : Variable → Option Bool) :
    g.IsKnowledge (Period.collect g view) := by
  intro name hn
  obtain ⟨b, hb⟩ := Table.contains_iff.mp hn
  obtain ⟨v, hv, rfl, _⟩ := (Period.get?_collect_eq_some_iff hg.nodup).mp hb
  exact List.mem_map_of_mem hv

theorem Reachable.path (hg : g.WellFormed) (h : Reachable g w) :
    ∃ settings time?, Path (start g settings time?) w := by
  obtain ⟨settings, time?, calls, rfl⟩ := h
  exact ⟨settings, time?, path_after hg calls⟩

theorem Reachable.graph_eq (hg : g.WellFormed) (h : Reachable g w) : w.graph = g := by
  obtain ⟨settings, time?, hp⟩ := h.path hg
  exact graph_eq_of_path hp

theorem Reachable.next (h : Reachable g w) (c : Call) : Reachable g (w.next c) := by
  obtain ⟨settings, time?, calls, rfl⟩ := h
  refine ⟨settings, time?, calls ++ [c], ?_⟩
  rw [after, after, List.foldl_append]
  rfl

theorem Step.edited (hs : Step w w') (time : Int) :
    Period.Edited w.graph (w.timeline.period time) (w'.timeline.period time) := by
  have hput : ∀ at' p, p.time = at' → Period.Edited w.graph (w.timeline.period at') p →
      Period.Edited w.graph (w.timeline.period time) ((w.timeline.put p).period time) := by
    rintro _ p rfl hp
    rw [Timeline.period_put]
    split
    next he => exact he ▸ hp
    next => exact .untouched
  have hnow : w.current.time = w.now := w.timeline.time_period w.now
  cases hs with
  | departed _ => exact .untouched
  | change hc =>
    cases hc with
    | observed v b hv hb => exact hput w.now _ hnow (.observed v b hv hb)
    | modified v b hv hm =>
      exact hput w.now _ ((Period.time_modified _ _ _).trans hnow) (.modified v b hv hm)
    | fired t ht hk hb =>
      exact hput w.now _ ((Period.time_fired _ _).trans hnow) (.fired t ht hk hb)
    | overridden other o ho =>
      exact hput other _ ((Period.time_overridden _ _).trans (w.timeline.time_period other))
        (.overridden o ho)
    | reportedTravel _ => exact .untouched
    | reportedReconciliation _ => exact .untouched
    | configured _ => exact .untouched

theorem period_start (g : Graph) (settings : Settings) (time? : Option Int) (time : Int) :
    (start g settings time?).timeline.period time = .blank time := by
  unfold Timeline.period Timeline.at?
  by_cases h : (Period.blank (time?.getD settings.startTime)).time = time
  · have hfind : (start g settings time?).timeline.periods.find? (fun p => p.time == time) =
        some (.blank (time?.getD settings.startTime)) :=
      List.find?_cons_of_pos (by simpa using h)
    rw [hfind, Option.getD_some]
    exact congrArg Period.blank h
  · have hfind : (start g settings time?).timeline.periods.find? (fun p => p.time == time) = none :=
      (List.find?_cons_of_neg (by simpa using h)).trans List.find?_nil
    rw [hfind, Option.getD_none]

theorem forall_period_of_path (hP : Period.Kept w.graph P) (h : Path w w')
    (hw : ∀ time, P (w.timeline.period time)) (time : Int) : P (w'.timeline.period time) := by
  induction h generalizing time with
  | refl => exact hw time
  | tail hpath hs ih => exact hP.edited (graph_eq_of_path hpath ▸ hs.edited time) (ih time)

/-- **What changes keep holds in every period** of a reachable world. -/
theorem Reachable.forall_period (hg : g.WellFormed) (hP : Period.Kept g P) (h : Reachable g w)
    (time : Int) : P (w.timeline.period time) := by
  obtain ⟨settings, time?, hpath⟩ := h.path hg
  refine forall_period_of_path (w := start g settings time?) hP hpath ?_ time
  intro other
  rw [period_start]
  exact hP.blank other

end World

/-! ### Antecedents -/

namespace Period

variable {g : Graph}

theorem mem_antecedentList_iff {p : Period} {a : Antecedent} :
    a ∈ p.antecedentList ↔ ∃ name, p.antecedents.get? name = some a := by
  rw [antecedentList, List.mem_map]
  refine ⟨?_, ?_⟩
  · rintro ⟨⟨name, b⟩, hmem, rfl⟩
    exact ⟨name, Table.mem_entries_iff.mp hmem⟩
  · rintro ⟨name, h⟩
    exact ⟨(name, a), Table.mem_entries_iff.mpr h, rfl⟩

/-- Every antecedent is that of a declared latch. -/
def FiringsDeclared (g : Graph) (p : Period) : Prop :=
  ∀ a ∈ p.antecedentList, ∃ t ∈ g.declared, t.isTriggered = true ∧ a.trigger = t.name

theorem firingsDeclared_of_antecedents {p q : Period} (h : q.antecedents = p.antecedents)
    (hp : p.FiringsDeclared g) : q.FiringsDeclared g := by
  intro a ha
  rw [mem_antecedentList_iff, h, ← mem_antecedentList_iff] at ha
  exact hp a ha

theorem kept_firingsDeclared (g : Graph) : Kept g (FiringsDeclared g) where
  blank := fun _ _ h => nomatch h
  observed := fun _ _ _ _ _ h => firingsDeclared_of_antecedents rfl h
  modified := fun p v b _ _ h => firingsDeclared_of_antecedents (antecedents_modified p v.name b) h
  overridden := fun p o _ h =>
    firingsDeclared_of_antecedents (antecedents_overridden p o.entries) h
  fired := by
    intro p t ht hk _ h a ha
    obtain ⟨name, ha⟩ := mem_antecedentList_iff.mp ha
    rw [antecedents_fired, Table.get?_set] at ha
    split at ha
    · cases ha
      exact ⟨t, ht, hk, rfl⟩
    · exact h a (mem_antecedentList_iff.mpr ⟨name, ha⟩)

theorem FiringsDeclared.declared (hg : g.WellFormed) {p : Period} (h : p.FiringsDeclared g) :
    ∀ a ∈ p.antecedentList, Arrival.Declared g a := by
  intro a ha
  obtain ⟨t, ht, _, he⟩ := h a ha
  refine ⟨t, ?_⟩
  rw [he, Graph.get, Graph.find?_name hg.nodup ht]

end Period

end Chronicle
