import Chronicle.Proofs.Arrival.Again
import Chronicle.Proofs.World.Reconciled

/-!
# All corrections are written

A reconciliation offers its corrections to the present and to the later period, and each takes what
is open there.  The present takes all of them: every mutable leaves its period, so what the joint
knowledge lacks the present does not know (`Fits.canOverride_source`), and of what it does not know
neither the start nor the current value can have been recorded.  The later period takes those that
have no current value there (`Fits.get?_targetOverrides`).

What is written is known from then on, in the other turns of the loop too (`peek_of_corrections`).
-/

namespace Chronicle

theorem Table.filter_eq_self {α : Type} {t : Table α} {keep : String → Bool}
    (h : ∀ name, t.contains name = true → keep name = true) : t.filter keep = t := by
  apply Table.eq_of_entries
  refine List.filter_eq_self.mpr ?_
  intro e he
  exact h e.1 (Table.contains_iff.mpr ⟨e.2, Table.mem_entries_iff.mp he⟩)

namespace Arrival

variable {g : Graph} {p q : Period} {merged : Valuation} {a : Arrival} {v : Variable}
  {name : String} {b : Bool}

section

variable (ha : a.Fits g merged q)

include ha

/-- **What a history corrects is open where the knowledge comes from.** -/
theorem Fits.canOverride_source (hg : g.IsValid) (hp : p.Aligned g)
    (hm : g.merge (p.carriedState g) (q.startState g) = some merged)
    (hb : (a.corrections merged).get? name = some b) : p.canOverride name = true := by
  have hwell := hg.wellFormed
  obtain ⟨_, _, v, hv, rfl, hmut, _⟩ := ha.corrections_eq_some hwell hb
  obtain ⟨hunknown, _⟩ :=
    ha.corrections_unknown hwell hm (Period.isKnowledge_carriedState hwell p) hv hb
  rw [Period.get?_carriedState hwell hv, if_pos (hg.carries_mutable hv hmut)] at hunknown
  exact hp.canOverride_of_unknown hv (Variable.isDerived_of_isMutable hmut) hunknown

/-- **What of the corrections is fixed in the later period**: all that has no current value. -/
theorem Fits.get?_targetOverrides (hg : g.WellFormed)
    (hm : g.merge (p.carriedState g) (q.startState g) = some merged) (name : String) :
    (startOverrides g q (a.corrections merged)).get? name =
      if (q.record name).currentValue = none then (a.corrections merged).get? name else none := by
  cases hb : (a.corrections merged).get? name with
  | none =>
    rw [ite_self]
    by_contra hn
    obtain ⟨c, hc⟩ := Option.ne_none_iff_exists'.mp hn
    obtain ⟨_, _, _, _, hc, _⟩ := startOverrides_eq_some hg hc
    rw [hb] at hc
    cases hc
  | some b =>
    obtain ⟨_, _, v, hv, rfl, _⟩ := ha.corrections_eq_some hg hb
    obtain ⟨_, hstart⟩ :=
      ha.corrections_unknown hg hm (Period.isKnowledge_carriedState hg p) hv hb
    have hopen : q.canOverride v.name = true ↔ (q.record v.name).currentValue = none := by
      rw [Period.canOverride_iff, hstart, eq_self, true_and]
    rw [get?_startOverrides hg hv, ha.filter_corrections hg hv, hb]
    simp only [hopen]

end

end Arrival

namespace World

open Relation (ReflTransGen)

variable {g : Graph} {w w' w₁ : World} {cause : Variable} {time : Int} {later : List Int}
  {merged : Valuation} {arrival : Arrival} {name : String} {b : Bool}

theorem peek_of_corrections (h : ReflTransGen Correction w w')
    (hb : w.current.peek name = some b) : w'.current.peek name = some b := by
  induction h with
  | refl => exact hb
  | @tail w' w'' _ hc ih =>
    cases hc with
    | reported r => exact ih
    | overridden time o ho =>
      show ((w'.timeline.put _).period w'.now).peek name = some b
      rw [Timeline.period_put, Period.time_overridden, Timeline.time_period]
      split
      next ht =>
        subst ht
        exact Period.peek_overridden ho ih
      next => exact ih

theorem reconciliation_of_found
    (hm : w.graph.merge (w.current.carriedState w.graph)
      ((w.timeline.period time).startState w.graph) = some merged)
    (hf : Arrival.find w.graph merged (w.timeline.period time) = .ok (some arrival)) :
    w.reconciliation cause time = .ok ⟨cause.name, w.now, time, true,
      (arrival.corrections merged).filter w.current.canOverride,
      Arrival.startOverrides w.graph (w.timeline.period time) (arrival.corrections merged),
      none⟩ := by
  unfold reconciliation
  dsimp only
  rw [hm]
  dsimp only
  rw [hf]
  rfl

/-- The present of the world `w` is reconciled with later periods, and the turn of a time is a
success: the turns before have come to `w₁`, what the present can tell does not contradict what the
period at that time started from, and a history of both fits that period. -/
structure Succeeds (cause : Variable) (w w₁ : World) (time : Int) (later : List Int)
    (merged : Valuation) (arrival : Arrival) : Prop where
  turn : ∃ earlier, (w.timeline.times.filter fun time => w.now < time) = earlier ++ time :: later ∧
    (reconcileWithAll cause earlier).run w = (.ok (), w₁)
  joined : w₁.graph.merge (w₁.current.carriedState w₁.graph)
    ((w₁.timeline.period time).startState w₁.graph) = some merged
  found : Arrival.find w₁.graph merged (w₁.timeline.period time) = .ok (some arrival)

theorem Succeeds.attained (hg : g.WellFormed) (hw : Attained g w)
    (h : Succeeds cause w w₁ time later merged arrival) :
    Attained g w₁ ∧ w₁.now = w.now ∧ w.now < time ∧ ∀ other ∈ later, w.now < other := by
  obtain ⟨earlier, htimes, hrun⟩ := h.turn
  have hlater : ∀ other ∈ earlier ++ time :: later, w.now < other := by
    intro other ho
    rw [← htimes] at ho
    simpa using (List.mem_filter.mp ho).2
  have hpath := (stays_reconcileWithAll (hw.graph_eq hg ▸ hg) cause fun other ho =>
    hlater other (List.mem_append_left _ ho)).aftermath.path hrun
  exact ⟨hw.aftermath hpath, now_eq_of_evolves (evolves_of_aftermath hpath),
    hlater time (by simp), fun other ho => hlater other (by simp [ho])⟩

section

variable (hg : g.IsValid) (hw : Attained g w) (h : Succeeds cause w w₁ time later merged arrival)

include hg hw h

theorem Succeeds.canOverride (hb : (arrival.corrections merged).get? name = some b) :
    w₁.current.canOverride name = true := by
  have hwell := hg.wellFormed
  obtain ⟨hattained, _⟩ := h.attained hwell hw
  obtain rfl := hattained.graph_eq hwell
  have haligned := hattained.forall_period hwell (Period.kept_aligned hwell) w₁.now
  exact (Arrival.fits_of_find h.found).canOverride_source hg haligned h.joined hb

/-- Nothing is filtered out of what is reported as fixed in the present. -/
theorem Succeeds.reconciliation_eq :
    w₁.reconciliation cause time = .ok ⟨cause.name, w.now, time, true, arrival.corrections merged,
      Arrival.startOverrides w₁.graph (w₁.timeline.period time) (arrival.corrections merged),
      none⟩ := by
  obtain ⟨_, hnow, _⟩ := h.attained hg.wellFormed hw
  have hall : (arrival.corrections merged).filter w₁.current.canOverride =
      arrival.corrections merged := by
    refine Table.filter_eq_self ?_
    intro name hn
    obtain ⟨b, hb⟩ := Table.contains_iff.mp hn
    exact h.canOverride hg hw hb
  rw [reconciliation_of_found h.joined h.found, hall, hnow]

/-- What the turn has corrected the present knows, after the turn and after those to come. -/
theorem Succeeds.peek_current {r : ReconciliationReport}
    (hr : w₁.reconciliation cause time = .ok r) (hs : r.success = true)
    (hsource : r.sourceOverrides = arrival.corrections merged)
    (hb : (arrival.corrections merged).get? name = some b) :
    ((w₁.reconciled r).reported r).current.peek name = some b ∧
      ∀ result w₃,
        (reconcileWithAll cause later).run ((w₁.reconciled r).reported r) = (result, w₃) →
        w₃.current.peek name = some b := by
  have hwell := hg.wellFormed
  obtain ⟨hattained, hnow, htime, hlater⟩ := h.attained hwell hw
  have hopen := h.canOverride hg hw hb
  obtain rfl := hattained.graph_eq hwell
  have haligned := hattained.forall_period hwell (Period.kept_aligned hwell) w₁.now
  have hne : time ≠ w₁.now := by omega
  obtain ⟨hcorrected, _⟩ := corrected_of_reconciliation hwell hr hs hne
  obtain ⟨m, hm, rfl, _⟩ := hcorrected.mutables name b (hsource ▸ hb)
  have hpeek : ((w₁.reconciled r).reported r).current.peek m.name = some b := by
    show (w₁.reconciled r).current.peek m.name = some b
    rw [hcorrected.peek_eq hwell haligned hm, Period.peek_of_canOverride hopen, hsource, hb,
      Option.none_or]
  refine ⟨hpeek, ?_⟩
  intro result w₃ hrest
  obtain ⟨hgraph, hnow', _⟩ := reconciled_eq w₁ r
  have hlater' : ∀ other ∈ later, ((w₁.reconciled r).reported r).now < other := by
    intro other ho
    show (w₁.reconciled r).now < other
    rw [hnow', hnow]
    exact hlater other ho
  have hwell' : ((w₁.reconciled r).reported r).graph.WellFormed := hgraph ▸ hwell
  exact peek_of_corrections ((stays_reconcileWithAll hwell' cause hlater').path hrest) hpeek

end

/-- **A reconciliation writes all of its corrections into the present.**  In any world of a history,
also in the middle of a call, let the present be reconciled with the later periods, and let the turn
of one of them be a success.  Everything that the history corrects is a mutable of which the present
knows neither the start nor the current value, so it is open there.  The turn ends without an error,
and reports as fixed in the present exactly the corrections, and as fixed in the later period those
that have no current value there.  What was corrected the present knows from then on, however the
turns that follow end. -/
theorem reconciliation_writes_corrections (hg : g.IsValid) (hw : Attained g w)
    (h : Succeeds cause w w₁ time later merged arrival) :
    (∀ name b, (arrival.corrections merged).get? name = some b →
      (∃ m ∈ g.declared, m.name = name ∧ m.isMutable = true) ∧
      (w₁.current.record name).knownStart = none ∧
      (w₁.current.record name).currentValue = none ∧ w₁.current.canOverride name = true) ∧
    ∃ w₂ targetOverrides,
      (reconcileWith cause time).run w₁ = (.ok (), w₂) ∧
      w₂.reconciliationLog = w₁.reconciliationLog.push ⟨cause.name, w.now, time, true,
        arrival.corrections merged, targetOverrides, none⟩ ∧
      (∀ name, targetOverrides.get? name =
        if ((w₁.timeline.period time).record name).currentValue = none then
          (arrival.corrections merged).get? name
        else none) ∧
      ∀ name b, (arrival.corrections merged).get? name = some b →
        w₂.current.peek name = some b ∧
        ∀ result w₃, (reconcileWithAll cause later).run w₂ = (result, w₃) →
          w₃.current.peek name = some b := by
  have hwell := hg.wellFormed
  obtain ⟨hattained, _⟩ := h.attained hwell hw
  have hgraph := hattained.graph_eq hwell
  have hfits := Arrival.fits_of_find h.found
  refine ⟨?_, ?_⟩
  · intro name b hb
    have hopen := h.canOverride hg hw hb
    obtain ⟨hstart, hvalue⟩ := Period.canOverride_iff.mp hopen
    obtain ⟨_, _, m, hm, he, hmut, _⟩ := hfits.corrections_eq_some (hgraph ▸ hwell) hb
    exact ⟨⟨m, hgraph ▸ hm, he, hmut⟩, hstart, hvalue, hopen⟩
  · have hr := h.reconciliation_eq hg hw
    have hrun := reconcileWith_run (hgraph ▸ hwell) cause time
    rw [hr] at hrun
    refine ⟨_, _, hrun, ?_, hfits.get?_targetOverrides (hgraph ▸ hwell) h.joined, ?_⟩
    · exact congrArg (Log.push · _) (reconciled_eq w₁ _).2.2.2
    · exact fun name b hb => h.peek_current hg hw hr rfl rfl hb

/-- The lamp in the cellar was lit after it had been seen dark; one tick later it still glows, and
one tick before somebody is about to turn the key.  Nobody looks where he writes. -/
def lampLit : World :=
  (start Graph.cellar ⟨0, false, true, 1000⟩ none).after
    [.read Graph.Cellar.glow.symbol, .write Graph.Cellar.lamp.symbol true, .travel 1,
      .read Graph.Cellar.glow.symbol, .travel (-1)]

def keyTurnedInLight : World := (lampLit.looked Graph.Cellar.key false).wrote Graph.Cellar.key true

/-- It was dark with the key turned. -/
def darkStart : Valuation := .ofList [("key", true), ("glow", false)]

/-- A lamp that has been lit all the time explains the darkness. -/
def litAllTheTime : Arrival :=
  ⟨.ofList [("key", true), ("glow", false), ("lamp", true)],
    .ofList [("key", true), ("glow", false), ("lamp", true)], .ofList [("key", true)]⟩

/-- To explain the darkness the lamp is lit in the present.  The later period has a current value of
it, so there nothing is fixed. -/
theorem reconciliation_writes_corrections_keyTurnedInLight :
    ∃ w₂ targetOverrides,
      (reconcileWith Graph.Cellar.key 0).run keyTurnedInLight = (.ok (), w₂) ∧
      w₂.reconciliationLog = keyTurnedInLight.reconciliationLog.push
        ⟨"key", -1, 0, true, .ofList [("lamp", true)], targetOverrides, none⟩ ∧
      (∀ name, targetOverrides.get? name = none) ∧
      ∀ result w₃, (reconcileWithAll Graph.Cellar.key [1]).run w₂ = (result, w₃) →
        w₃.current.peek "lamp" = some true := by
  have hreachable : Reachable Graph.cellar lampLit := ⟨_, none, _, rfl⟩
  have hprior : lampLit.peek Graph.Cellar.key.symbol = .ok false := by decide +kernel
  have hattained : Attained Graph.cellar keyTurnedInLight := hreachable.attained.wrote
    Graph.cellar_isValid.wellFormed (by simp [Graph.cellar]) rfl hprior true
  have hsucceeds : Succeeds Graph.Cellar.key keyTurnedInLight keyTurnedInLight 0 [1] darkStart
      litAllTheTime :=
    ⟨⟨[], by decide +kernel, rfl⟩, by decide +kernel, by decide +kernel⟩
  have hcorrections : litAllTheTime.corrections darkStart = .ofList [("lamp", true)] := by
    decide +kernel
  obtain ⟨_, w₂, targetOverrides, hrun, hlog, htarget, hpeek⟩ :=
    reconciliation_writes_corrections Graph.cellar_isValid hattained hsucceeds
  rw [hcorrections] at hlog htarget hpeek
  refine ⟨w₂, targetOverrides, hrun, hlog, ?_, (hpeek "lamp" true rfl).2⟩
  intro name
  rw [htarget, Table.get?_ofList (by decide)]
  by_cases hn : "lamp" = name
  · subst hn
    exact if_neg (by decide +kernel)
  · rw [Table.lookup, if_neg hn]
    exact ite_self _

end World

end Chronicle
