import Chronicle.Proofs.Period.Watch
import Chronicle.Proofs.World.Coherent
import Chronicle.Proofs.World.History
import Chronicle.Proofs.World.Plain

/-!
# A permanent change stays permanent

An irreversible mutable leaves its default once.  In a history in which every write observes
(`Observing`) no period that knows of it forgets: whatever a call does to a period is a chain of
edits that each keep it (`attended_next`), and so is all that a history does (`attended_after`).

And a journey takes it along.  What is known of a mutable leaves the period, because no sighting is
stale; at the destination the start is either known, and then it must be the same, or it is open,
and then it is fixed, for no replay takes a mutable back to its default (`Fits.peek_of_leaving`).
-/

namespace Chronicle

theorem Variable.isMutable_of_irreversible {v : Variable} (h : v.isReversible = false) :
    v.isMutable = true := by
  obtain ⟨symbol, role, dependencies, closure⟩ := v
  cases role with
  | mutable default reversible => rfl
  | derived rule => cases h
  | triggered rule persistent => cases h

namespace Arrival

variable {g : Graph} {p : Period} {known merged : Valuation} {a : Arrival} {v : Variable}

/-- **An arrival takes a permanent change along**, if every write at the destination was seen. -/
theorem Fits.peek_of_leaving (hg : g.WellFormed) (h : a.Fits g merged p) (hp : p.Noted g)
    (hm : g.merge known (p.startState g) = some merged) (hv : v ∈ g.declared)
    (hr : v.isReversible = false) (hk : known.get? v.name = some (!v.default)) :
    (p.overridden a.overrides.entries).peek v.name = some (!v.default) := by
  have hmut := Variable.isMutable_of_irreversible hr
  rw [h.peek_overridden hg hp.toAligned hv]
  cases hs : (p.record v.name).knownStart with
  | some c =>
    have hc : c = !v.default := by
      by_contra hne
      have hconflict : v.name ∈ g.conflicts known (p.startState g) :=
        Graph.mem_conflicts_iff.mpr ⟨List.mem_map_of_mem hv, !v.default, c, hk,
          (Period.get?_startState hg.nodup hv).trans hs, Ne.symm hne⟩
      rw [(Graph.merge_eq_some_iff.mp hm).1] at hconflict
      cases hconflict
    rw [hp.peek_of_knownStart hv hmut hr (hc ▸ hs), Option.some_or]
  | none =>
    have ho := hp.canOverride hv hmut hs
    have hcandidate : a.candidate.get? v.name = some (!v.default) := by
      apply h.candidate_extends hg
      rw [get?_merged hg hm hv ho, hk]
    have hresolved : a.resolved.get? v.name = some (!v.default) := by
      rcases h.get?_resolved hg v.name with hsame | ⟨u, hu, he, _, hflip, _⟩
      · rw [hsame, hcandidate]
      · obtain rfl := hg.eq_of_name hu hv he
        exact hflip
    have hover : a.overrides.get? v.name = some (!v.default) := by
      rw [h.overrides, get?_startOverrides hg hv, if_pos ho, hresolved]
      simp [isNews, hmut]
    rw [(h.peek_eq_none hg (Table.contains_iff.mpr ⟨_, hover⟩)).2, hover, Option.none_or]

end Arrival

namespace World

open Relation (ReflTransGen)

variable {g : Graph} {w w' : World} {time : Int} {v : Variable} {calls : List Call}

/-- Whenever a call of the history is made, writes observe. -/
def Observing (w : World) : List Call → Prop
  | [] => True
  | c :: rest => w.settings.observeOnWrite = true ∧ (w.next c).Observing rest

instance decidableObserving : (w : World) → (calls : List Call) → Decidable (w.Observing calls)
  | _, [] => isTrue trivial
  | w, c :: rest =>
    haveI := decidableObserving (w.next c) rest
    inferInstanceAs (Decidable (w.settings.observeOnWrite = true ∧ (w.next c).Observing rest))

/-- The world comes from a fresh one by a history in which every write observes. -/
def Watched (g : Graph) (w : World) : Prop :=
  ∃ settings time? calls, (start g settings time?).Observing calls ∧
    w = (start g settings time?).after calls

theorem Watched.reachable (h : Watched g w) : Reachable g w := by
  obtain ⟨settings, time?, calls, _, rfl⟩ := h
  exact ⟨settings, time?, calls, rfl⟩

theorem Observing.append_singleton (h : w.Observing calls)
    (ho : (w.after calls).settings.observeOnWrite = true) (c : Call) :
    w.Observing (calls ++ [c]) := by
  induction calls generalizing w with
  | nil => exact ⟨ho, trivial⟩
  | cons first rest ih => exact ⟨h.1, ih h.2 ho⟩

theorem Watched.next (h : Watched g w) (ho : w.settings.observeOnWrite = true) (c : Call) :
    Watched g (w.next c) := by
  obtain ⟨settings, time?, calls, hcalls, rfl⟩ := h
  refine ⟨settings, time?, calls ++ [c], hcalls.append_singleton ho c, ?_⟩
  rw [after, after, List.foldl_append]
  rfl

/-! ### What a call does to a period -/

theorem edited_setPeriod {R : Period → Period → Prop} {t : Int} {p : Period}
    (h : R (w.timeline.period t) p) (hp : p.time = t) (time : Int) :
    ReflTransGen R (w.timeline.period time) ((w.setPeriod p).timeline.period time) := by
  show ReflTransGen R _ ((w.timeline.put p).period time)
  rw [Timeline.period_put]
  split
  next he =>
    rw [← he, hp]
    exact ReflTransGen.single h
  next => exact ReflTransGen.refl

theorem attended_of_aftermath (h : ReflTransGen Aftermath w w') (time : Int) :
    ReflTransGen (Period.Attended w.graph) (w.timeline.period time) (w'.timeline.period time) := by
  induction h with
  | refl => exact ReflTransGen.refl
  | @tail w₁ w₂ hbefore hs ih =>
    have hgraph := graph_eq_of_aftermath hbefore
    refine ih.trans ?_
    rw [← hgraph]
    cases hs with
    | fired t ht hk hp =>
      exact edited_setPeriod (t := w₁.now) (Period.Attended.fired t ht hk hp)
        ((Period.time_fired _ _).trans (time_current w₁)) time
    | overridden other o ho =>
      exact edited_setPeriod (Period.Attended.overridden o ho)
        ((Period.time_overridden _ _).trans (w₁.timeline.time_period other)) time
    | reported r => exact ReflTransGen.refl

theorem wrote_looked (ho : w.settings.observeOnWrite = true) (v : Variable) (prior b : Bool) :
    (w.looked v prior).wrote v b =
      w.setPeriod ((w.current.observed v.name prior).written w.graph true v b) := by
  have hlooked : w.looked v prior = w.setPeriod (w.current.observed v.name prior) := by
    rw [looked, if_pos ho]
  rw [hlooked, wrote, current_observed]
  show (w.setPeriod _).setPeriod (Period.written w.graph w.settings.observeOnWrite _ v b) = _
  rw [ho, setPeriod_setPeriod]
  exact (Period.time_written _ _ _ _).symm

theorem attended_wrote (hg : w.graph.WellFormed) (ho : w.settings.observeOnWrite = true)
    (hv : v ∈ w.graph.declared) (hm : v.isMutable = true) {prior b : Bool}
    (hp : w.peek v.symbol = .ok prior) (hfree : forbids v prior b = false) (time : Int) :
    ReflTransGen (Period.Attended w.graph) (w.timeline.period time)
      (((w.looked v prior).wrote v b).timeline.period time) := by
  obtain ⟨u, hu, he, hknown⟩ := peek_eq_ok hp
  obtain rfl := hg.eq_of_name hu hv (congrArg Symbol.name he)
  have hedit : Period.Attended w.graph w.current
      ((w.current.observed u.name prior).written w.graph true u b) :=
    .overwritten u prior b hu hm hknown hfree
  rw [wrote_looked ho]
  exact edited_setPeriod (t := w.now) hedit
    ((Period.time_written _ _ _ _).trans (time_current w)) time

/-- **What a call does to a period** if writes observe: a chain of edits, each of which keeps what
is known of a permanent change. -/
theorem attended_next (hg : w.graph.WellFormed) (ho : w.settings.observeOnWrite = true) (c : Call)
    (time : Int) : ReflTransGen (Period.Attended w.graph) (w.timeline.period time)
      ((w.next c).timeline.period time) := by
  have hobserved : ∀ v ∈ w.graph.declared, ∀ b, w.peek v.symbol = .ok b →
      ReflTransGen (Period.Attended w.graph) (w.timeline.period time)
        ((w.setPeriod (w.current.observed v.name b)).timeline.period time) := by
    intro v hv b hb
    obtain ⟨u, hu, he, hknown⟩ := peek_eq_ok hb
    obtain rfl := hg.eq_of_name hu hv (congrArg Symbol.name he)
    have hedit : Period.Attended w.graph w.current (w.current.observed u.name b) :=
      .observed u b hu hknown
    exact edited_setPeriod (t := w.now) hedit (time_current w) time
  cases c with
  | peek s =>
    rw [(answer_peek w s).2]
  | read s =>
    cases hp : w.peek s with
    | error e => rw [(answer_read_error hp).2]
    | ok b =>
      obtain ⟨v, hv, rfl, _⟩ := peek_eq_ok hp
      rw [(answer_read hp).2]
      exact hobserved v hv b hp
  | write s b =>
    rcases next_write_cases hg s b with
      hnext | ⟨v, hv, hm, rfl, prior, hp, ⟨_, hnext⟩ | ⟨hfree, hpath⟩⟩
    · rw [hnext]
    · rw [hnext, looked, if_pos ho]
      exact hobserved v hv prior hp
    · have hgraph : ((w.looked v prior).wrote v b).graph = w.graph := (looked_eq w v prior).1
      have hafter := attended_of_aftermath hpath time
      rw [hgraph] at hafter
      exact (attended_wrote hg ho hv hm hp hfree time).trans hafter
  | travel destination =>
    obtain ⟨w', hpath, htimeline⟩ := exists_corrections_travel hg destination
    rw [htimeline]
    exact attended_of_aftermath (aftermath_of_corrections hpath) time
  | canTravel destination =>
    rw [timeline_canTravel hg]
  | assign field d => exact ReflTransGen.refl

/-- **What a history does to a period** if every write observes. -/
theorem attended_after (hg : w.graph.WellFormed) (ho : w.Observing calls) (time : Int) :
    ReflTransGen (Period.Attended w.graph) (w.timeline.period time)
      ((w.after calls).timeline.period time) := by
  induction calls generalizing w with
  | nil => exact ReflTransGen.refl
  | cons c rest ih =>
    have hgraph := graph_next hg c
    have hrest := ih (hgraph ▸ hg) ho.2
    rw [hgraph] at hrest
    exact (attended_next hg ho.1 c time).trans hrest

theorem Watched.noted (hg : g.WellFormed) (h : Watched g w) (time : Int) :
    (w.timeline.period time).Noted g := by
  obtain ⟨settings, time?, calls, ho, rfl⟩ := h
  have hpath := attended_after (w := start g settings time?) hg ho time
  rw [period_start] at hpath
  exact (Period.noted_blank hg time).attended_chain hg hpath

/-- **A permanent change stays permanent.**  In a run in which every write observes, a period that
knows an irreversible mutable away from its default does so for the rest of the run; and if the
present period does, so does every later period in which a journey from here arrives, whether it is
new or was visited, written or overridden before. -/
theorem permanent_change_lasts (hg : g.IsValid) (hw : Watched g w) (hv : v ∈ g.declared)
    (hr : v.isReversible = false) :
    (∀ calls, w.Observing calls → ∀ time,
      (w.timeline.period time).peek v.name = some (!v.default) →
      ((w.after calls).timeline.period time).peek v.name = some (!v.default)) ∧
    (w.current.peek v.name = some (!v.default) → ∀ time, w.now < time →
      w.answer (.travel time) = .ok (some true) →
      (w.next (.travel time)).now = time ∧
        (w.next (.travel time)).current.peek v.name = some (!v.default)) := by
  have hwell := hg.wellFormed
  have hm := Variable.isMutable_of_irreversible hr
  obtain rfl := hw.reachable.graph_eq hwell
  refine ⟨?_, ?_⟩
  · intro calls ho time hp
    exact Period.peek_lasting_chain hwell (attended_after hwell ho time) hv hm hr hp
  · intro hp time ht h
    obtain ⟨merged, arrival, hmerge, hfind, hnext⟩ := arrived_of_answer hwell ht h
    have hleaving : w.leaving.get? v.name = some (!v.default) := by
      have hnoted : w.current.Noted w.graph := hw.noted hwell w.now
      rw [leaving, Period.get?_endState hwell hv, if_pos (hg.carries_mutable hv hm),
        hnoted.outgoing hv hm, hp]
    rw [hnext, current_arrived]
    exact ⟨rfl, (Arrival.fits_of_find hfind).peek_of_leaving hwell (hw.noted hwell time) hmerge hv
      hr hleaving⟩

/-! ### The glass is broken before it was seen whole -/

/-- Tomorrow was visited and its level set, and now the glass is broken today. -/
def glassBroken : World :=
  (start Graph.gauge .standard none).after
    [.travel 1, .write Graph.Gauge.high.symbol false, .travel 0,
      .write Graph.Gauge.glass.symbol false]

theorem glassBroken_watched : Watched Graph.gauge glassBroken :=
  ⟨.standard, none, _, by decide +kernel, rfl⟩

/-- The glass stays broken today when it is looked at again, and is broken tomorrow too. -/
theorem permanent_change_lasts_glassBroken :
    ((glassBroken.after [.read Graph.Gauge.full.symbol, .write Graph.Gauge.glass.symbol true]
        ).timeline.period 0).peek "glass" = some false ∧
      glassBroken.answer (.travel 1) = .ok (some true) ∧
      (glassBroken.next (.travel 1)).current.peek "glass" = some false := by
  have hanswer : glassBroken.answer (.travel 1) = .ok (some true) := by decide +kernel
  obtain ⟨hstays, htravels⟩ := permanent_change_lasts (v := Graph.Gauge.glass)
    Graph.gauge_isValid glassBroken_watched (by simp [Graph.gauge]) rfl
  refine ⟨?_, hanswer, ?_⟩
  · exact hstays _ (by decide +kernel) 0 (by decide +kernel)
  · exact (htravels (by decide +kernel) 1 (by decide +kernel) hanswer).2

end World

end Chronicle
