import Chronicle.Proofs.Arrival.Fits
import Chronicle.Proofs.Period.Modify
import Chronicle.World.Call
import Mathlib.Logic.Relation

/-!
# What can happen to a world

Everything that a call does to a world is made of a few changes at the present time, each with its
guard (`Change`), and of departures to another time (`Step`).  Each operation but the journey is
taken apart here once, and stays where it is: `stays_read`, `stays_reconcileFuture`, `stays_write`.

Beside what is read and written, latches fire and open starts are fixed (`Aftermath`): this is all
that follows a write within its call.  A latch fires or leaves the world as it was
(`fire_run_cases`), and a reconciliation with one period is settled before it writes anything
(`reconciliation`, `reconcileWith_run`).

Latches fire in a write and nowhere else, after it has been settled (`write_run_of_require`): a
write is settled, and is reconciled in the end, without a firing (`stays_settle`, `Correction`).
-/

namespace Chronicle

namespace Timeline

theorem period_put (l : Timeline) (p : Period) (time : Int) :
    (l.put p).period time = if p.time = time then p else l.period time := by
  rw [period, at?_put]
  split
  · rfl
  · rfl

theorem time_period (l : Timeline) (time : Int) : (l.period time).time = time := by
  unfold period
  cases h : l.at? time with
  | none => rfl
  | some p => simpa using List.find?_some h

theorem put_put (l : Timeline) {p q : Period} (h : p.time = q.time) :
    (l.put p).put q = l.put q := by
  suffices hin : ∀ ps : List Period, putIn q (putIn p ps) = putIn q ps from
    congrArg Timeline.mk (hin l.periods)
  intro ps
  induction ps with
  | nil => simp [putIn, h]
  | cons r rest ih =>
    by_cases hlt : q.time < r.time
    · simp [putIn, h, hlt]
    · by_cases he : q.time = r.time
      · simp [putIn, h, he]
      · simp [putIn, h, hlt, he, ih]

end Timeline

namespace World

open Relation (ReflTransGen)

variable {g : Graph} {w w' : World} {α β : Type}

/-- One thing that happens to a world at its present time. -/
inductive Change (w : World) : World → Prop
  /-- What is seen was unknown, or known to be so. -/
  | observed (v : Variable) (b : Bool) (hv : v ∈ w.graph.declared)
      (h : ∀ c, w.current.peek v.name = some c → c = b) :
      Change w (w.setPeriod (w.current.observed v.name b))
  | modified (v : Variable) (b : Bool) (hv : v ∈ w.graph.declared) (hm : v.isMutable = true) :
      Change w (w.setPeriod (w.current.modified w.graph v.name b))
  | fired (t : Variable) (ht : t ∈ w.graph.declared) (hk : t.isTriggered = true)
      (h : w.current.peek t.name ≠ some true) :
      Change w (w.setPeriod (w.current.fired w.graph t))
  /-- Open start values are fixed, in any period; without any this is a visit. -/
  | overridden (time : Int) (o : Valuation) (h : (w.timeline.period time).Accepts o) :
      Change w (w.setPeriod ((w.timeline.period time).overridden o.entries))
  | reportedTravel (r : TravelReport) : Change w { w with travelLog := w.travelLog.push r }
  | reportedReconciliation (r : ReconciliationReport) :
      Change w { w with reconciliationLog := w.reconciliationLog.push r }
  | configured (f : Settings → Settings) : Change w { w with settings := f w.settings }

theorem Change.graph_eq (h : Change w w') : w'.graph = w.graph := by
  cases h <;> rfl

theorem Change.now_eq (h : Change w w') : w'.now = w.now := by
  cases h <;> rfl

/-- A change, or a departure to another time. -/
inductive Step (w : World) : World → Prop
  | change {w' : World} (h : Change w w') : Step w w'
  | departed (time : Int) : Step w { w with now := time }

theorem Step.graph_eq (h : Step w w') : w'.graph = w.graph := by
  cases h with
  | change h => exact h.graph_eq
  | departed time => rfl

abbrev Evolves : World → World → Prop := ReflTransGen Change

abbrev Path : World → World → Prop := ReflTransGen Step

theorem graph_eq_of_evolves (h : Evolves w w') : w'.graph = w.graph := by
  induction h with
  | refl => rfl
  | tail _ hc ih => exact hc.graph_eq.trans ih

theorem now_eq_of_evolves (h : Evolves w w') : w'.now = w.now := by
  induction h with
  | refl => rfl
  | tail _ hc ih => exact hc.now_eq.trans ih

theorem path_of_evolves (h : Evolves w w') : Path w w' :=
  ReflTransGen.mono (fun _ _ hc => Step.change hc) w w' h

theorem current_setPeriod {p : Period} (h : p.time = w.now) : (w.setPeriod p).current = p := by
  show (w.timeline.put p).period w.now = p
  rw [Timeline.period_put, if_pos h]

theorem setPeriod_setPeriod (w : World) {p q : Period} (h : p.time = q.time) :
    (w.setPeriod p).setPeriod q = w.setPeriod q := by
  show { w with timeline := (w.timeline.put p).put q } = _
  rw [Timeline.put_put _ h]
  rfl

/-- One thing that happens beside what is read and written. -/
inductive Aftermath (w : World) : World → Prop
  | fired (t : Variable) (ht : t ∈ w.graph.declared) (hk : t.isTriggered = true)
      (h : w.current.peek t.name ≠ some true) :
      Aftermath w (w.setPeriod (w.current.fired w.graph t))
  | overridden (time : Int) (o : Valuation) (h : (w.timeline.period time).Accepts o) :
      Aftermath w (w.setPeriod ((w.timeline.period time).overridden o.entries))
  | reported (r : ReconciliationReport) :
      Aftermath w { w with reconciliationLog := w.reconciliationLog.push r }

theorem Aftermath.change (h : Aftermath w w') : Change w w' := by
  cases h with
  | fired t ht hk h => exact .fired t ht hk h
  | overridden time o h => exact .overridden time o h
  | reported r => exact .reportedReconciliation r

theorem evolves_of_aftermath (h : ReflTransGen Aftermath w w') : Evolves w w' :=
  ReflTransGen.mono (fun _ _ hc => hc.change) w w' h

theorem graph_eq_of_aftermath (h : ReflTransGen Aftermath w w') : w'.graph = w.graph :=
  graph_eq_of_evolves (evolves_of_aftermath h)

/-- What happens while periods are reconciled: open starts are fixed, and it is reported. -/
inductive Correction (w : World) : World → Prop
  | overridden (time : Int) (o : Valuation) (h : (w.timeline.period time).Accepts o) :
      Correction w (w.setPeriod ((w.timeline.period time).overridden o.entries))
  | reported (r : ReconciliationReport) :
      Correction w { w with reconciliationLog := w.reconciliationLog.push r }

theorem Correction.aftermath (h : Correction w w') : Aftermath w w' := by
  cases h with
  | overridden time o h => exact .overridden time o h
  | reported r => exact .reported r

theorem aftermath_of_corrections (h : ReflTransGen Correction w w') :
    ReflTransGen Aftermath w w' :=
  ReflTransGen.mono (fun _ _ hc => hc.aftermath) w w' h

/-- A change in which no latch fires. -/
structure Calm (w w' : World) : Prop where
  change : Change w w'
  antecedents : ∀ time,
    (w'.timeline.period time).antecedents = (w.timeline.period time).antecedents

theorem evolves_of_calm (h : ReflTransGen Calm w w') : Evolves w w' :=
  ReflTransGen.mono (fun _ _ hc => hc.change) w w' h

theorem graph_eq_of_calm (h : ReflTransGen Calm w w') : w'.graph = w.graph :=
  graph_eq_of_evolves (evolves_of_calm h)

theorem antecedents_setPeriod {p : Period} {time : Int} (ht : p.time = time)
    (hp : p.antecedents = (w.timeline.period time).antecedents) (other : Int) :
    ((w.setPeriod p).timeline.period other).antecedents =
      (w.timeline.period other).antecedents := by
  show ((w.timeline.put p).period other).antecedents = _
  rw [Timeline.period_put]
  split
  next he => rw [hp, ← ht, he]
  next => rfl

theorem Correction.calm (h : Correction w w') : Calm w w' where
  change := h.aftermath.change
  antecedents := by
    cases h with
    | overridden time o _ =>
      exact antecedents_setPeriod
        ((Period.time_overridden _ _).trans (w.timeline.time_period time))
        (Period.antecedents_overridden _ _)
    | reported r => exact fun _ => rfl

/-! ### Operations that stay -/

/-- The operation does nothing to the world but steps of the relation. -/
def Stays (R : World → World → Prop) (act : Action α) (w : World) : Prop :=
  ReflTransGen R w (act.run w).2

theorem Stays.mono {R S : World → World → Prop} {act : Action α} (h : Stays R act w)
    (hRS : ∀ w w', R w w' → S w w') : Stays S act w :=
  ReflTransGen.mono hRS w _ h

theorem Stays.evolves {act : Action α} (h : Stays Aftermath act w) : Stays Change act w :=
  evolves_of_aftermath h

theorem Stays.aftermath {act : Action α} (h : Stays Correction act w) : Stays Aftermath act w :=
  aftermath_of_corrections h

theorem Stays.path {R : World → World → Prop} {act : Action α} {r : Except Error α}
    (h : Stays R act w) (hrun : act.run w = (r, w')) : ReflTransGen R w w' := by
  rw [Stays, hrun] at h
  exact h

section

variable {R : World → World → Prop} {x : Action α} {k : Unit → Action α} {f : α → Action β}

theorem stays_pure (a : α) (w : World) : Stays R (pure a) w := ReflTransGen.refl

theorem stays_throw (e : Error) (w : World) : Stays R (throw e : Action α) w := ReflTransGen.refl

theorem stays_bind (hx : Stays R x w)
    (hf : ∀ a w', x.run w = (.ok a, w') → ReflTransGen R w w' → Stays R (f a) w') :
    Stays R (x >>= f) w := by
  unfold Stays at hx ⊢
  rw [run_bind]
  rcases h : x.run w with ⟨e | a, w'⟩
  · rw [h] at hx
    exact hx
  · rw [h] at hx
    exact hx.trans (hf a w' h hx)

theorem stays_get_bind {f : World → Action β} (h : Stays R (f w) w) : Stays R (get >>= f) w := h

theorem stays_lift_bind {x : Except Error α} (h : ∀ a, x = .ok a → Stays R (f a) w) :
    Stays R (liftM x >>= f) w := by
  cases x with
  | error e => exact ReflTransGen.refl
  | ok a => exact h a rfl

theorem stays_modify {f : World → World} (h : R w (f w)) : Stays R (modify f) w :=
  ReflTransGen.single h

theorem stays_when {c : Prop} [Decidable c] {x : Action Unit} (hx : c → Stays R x w)
    (hk : ∀ w', ReflTransGen R w w' → Stays R (k ()) w') :
    Stays R (if c then x >>= k else k ()) w := by
  by_cases h : c
  · rw [if_pos h]
    exact stays_bind (hx h) fun _ w' _ hw => hk w' hw
  · rw [if_neg h]
    exact hk w ReflTransGen.refl

end

theorem peek_eq_ok {s : Symbol} {b : Bool} (h : w.peek s = .ok b) :
    ∃ v ∈ w.graph.declared, v.symbol = s ∧ ∀ c, w.current.peek v.name = some c → c = b := by
  obtain ⟨v, hv, h⟩ := bind_eq_ok.mp h
  obtain ⟨hmem, hs⟩ := Graph.require_eq_ok hv
  refine ⟨v, hmem, hs, ?_⟩
  intro c hc
  rw [hc] at h
  exact Except.ok.inj h

theorem calm_observed {v : Variable} {b : Bool} (hv : v ∈ w.graph.declared)
    (h : ∀ c, w.current.peek v.name = some c → c = b) :
    Calm w (w.setPeriod (w.current.observed v.name b)) where
  change := .observed v b hv h
  antecedents := antecedents_setPeriod (w.timeline.time_period w.now) rfl

theorem stays_read (s : Symbol) (w : World) : Stays Calm (read s) w := by
  refine stays_get_bind (stays_lift_bind ?_)
  intro b hb
  obtain ⟨v, hv, rfl, hc⟩ := peek_eq_ok hb
  refine stays_bind (stays_modify (calm_observed hv hc)) ?_
  intro _ w' _ _
  exact stays_pure b w'

/-! ### Firings -/

/-- **A latch fires or leaves the world as it was.**  Both writes of a persistent latch are one. -/
theorem fire_run_cases (t : Variable) (w : World) :
    (∃ r, r ≠ .ok true ∧ (fire t).run w = (r, w)) ∨
      (w.current.peek t.name ≠ some true ∧
        (fire t).run w = (.ok true, w.setPeriod (w.current.fired w.graph t))) := by
  unfold fire
  rw [run_get_bind]
  split
  · exact Or.inl ⟨.ok false, by simp, rfl⟩
  next hp =>
    cases w.resolve (w.knowledgeWithout t) with
    | error e => exact Or.inl ⟨.error e, by simp, rfl⟩
    | ok s =>
      rcases hc : t.computes s with e | _ | _
      · refine Or.inl ⟨.error e, by simp, ?_⟩
        show ((liftM (t.computes s) : Action Bool) >>= _).run w = _
        rw [hc]
        rfl
      · refine Or.inl ⟨.ok false, by simp, ?_⟩
        show ((liftM (t.computes s) : Action Bool) >>= _).run w = _
        rw [hc]
        rfl
      · refine Or.inr ⟨hp, ?_⟩
        show ((liftM (t.computes s) : Action Bool) >>= _).run w = _
        rw [hc, Period.fired]
        cases t.isPersistent with
        | false => rfl
        | true =>
          have htime : (w.current.triggered w.graph t).time = w.now :=
            (Period.time_triggered _ _).trans (w.timeline.time_period w.now)
          have hput := setPeriod_setPeriod w (p := w.current.triggered w.graph t)
            (q := (w.current.triggered w.graph t).observed t.name true) rfl
          show (Except.ok true, (w.setPeriod (w.current.triggered w.graph t)).setPeriod
            ((w.setPeriod (w.current.triggered w.graph t)).current.observed t.name true)) = _
          rw [current_setPeriod htime, hput]
          rfl

theorem stays_fire {t : Variable} (ht : t ∈ w.graph.declared) (hk : t.isTriggered = true) :
    Stays Aftermath (fire t) w := by
  unfold Stays
  rcases fire_run_cases t w with ⟨r, _, hrun⟩ | ⟨hp, hrun⟩
  · rw [hrun]
  · rw [hrun]
    exact ReflTransGen.single (.fired t ht hk hp)

theorem stays_fireAll {l : List Variable} (hg : w.graph.WellFormed)
    (hl : ∀ t ∈ l, t ∈ w.graph.declared ∧ t.isTriggered = true) :
    Stays Aftermath (fireAll l) w := by
  induction l generalizing w with
  | nil => exact stays_pure [] w
  | cons t rest ih =>
    obtain ⟨ht, hk⟩ := hl t List.mem_cons_self
    refine stays_bind (stays_fire ht hk) ?_
    intro fired w' _ hw
    have hsame := graph_eq_of_aftermath hw
    refine stays_bind (ih (hsame ▸ hg) ?_) fun others w'' _ _ => ?_
    · intro u hu
      rw [hsame]
      exact hl u (List.mem_cons_of_mem t hu)
    · split
      · exact stays_pure _ w''
      · exact stays_pure _ w''

/-! ### Reconciliations -/

theorem overrideEach_of_open {l : List (String × Bool)} {p : Period}
    (hn : (l.map Prod.fst).Nodup) (ho : ∀ e ∈ l, p.canOverride e.1 = true) :
    overrideEach l p = .ok (p.overridden l) := by
  induction l generalizing p with
  | nil => rfl
  | cons e rest ih =>
    obtain ⟨name, b⟩ := e
    rw [List.map_cons, List.nodup_cons] at hn
    rw [overrideEach, Period.overrideStart_of_canOverride (ho _ List.mem_cons_self), ok_bind]
    refine ih hn.2 ?_
    intro e he
    rw [Period.canOverride_overriddenAt_of_ne]
    · exact ho e (List.mem_cons_of_mem _ he)
    · rintro rfl
      exact hn.1 (List.mem_map.mpr ⟨e, he, rfl⟩)

theorem overrideEach_of_accepts {o : Valuation} {p : Period} (h : p.Accepts o) :
    overrideEach o.entries p = .ok (p.overridden o.entries) := by
  refine overrideEach_of_open o.nodup ?_
  intro e he
  exact h e.1 (Table.contains_iff.mpr ⟨e.2, Table.mem_entries_iff.mp he⟩)

theorem accepts_filter (p : Period) (o : Valuation) : p.Accepts (o.filter p.canOverride) := by
  intro name hn
  rw [Table.contains, Table.get?_filter] at hn
  by_contra ho
  rw [if_neg ho] at hn
  cases hn

theorem accepts_startOverrides (hg : g.WellFormed) (p : Period) (r : Valuation) :
    p.Accepts (Arrival.startOverrides g p r) := by
  intro name hn
  obtain ⟨b, hb⟩ := Table.contains_iff.mp hn
  obtain ⟨_, _, _, ho, _⟩ := Arrival.startOverrides_eq_some hg hb
  exact ho

/-- How a reconciliation of the present with the period at a time would be reported. -/
def reconciliation (w : World) (cause : Variable) (time : Int) :
    Except Error ReconciliationReport :=
  let known := w.current.carriedState w.graph
  let target := w.timeline.period time
  let started := target.startState w.graph
  match w.graph.merge known started with
  | none => .ok ⟨cause.name, w.now, time, false, .empty, .empty,
      some (conflictReason (w.graph.conflicts known started))⟩
  | some merged => do
    match ← Arrival.find w.graph merged target with
    | none => return ⟨cause.name, w.now, time, false, .empty, .empty, some noHistoryReason⟩
    | some arrival => return ⟨cause.name, w.now, time, true,
        (arrival.corrections merged).filter w.current.canOverride,
        Arrival.startOverrides w.graph target (arrival.corrections merged), none⟩

/-- The world with the starts fixed that the report of a success names. -/
def reconciled (w : World) (r : ReconciliationReport) : World :=
  if r.success then
    (w.setPeriod (w.current.overridden r.sourceOverrides.entries)).setPeriod
      ((w.timeline.period r.target).overridden r.targetOverrides.entries)
  else w

def reported (w : World) (r : ReconciliationReport) : World :=
  { w with reconciliationLog := w.reconciliationLog.push r }

theorem reconciliation_eq_ok {cause : Variable} {time : Int} {r : ReconciliationReport}
    (h : w.reconciliation cause time = .ok r) :
    r.cause = cause.name ∧ r.source = w.now ∧ r.target = time ∧
      (r.success = true → ∃ merged arrival,
        w.graph.merge (w.current.carriedState w.graph)
          ((w.timeline.period time).startState w.graph) = some merged ∧
        Arrival.find w.graph merged (w.timeline.period time) = .ok (some arrival) ∧
        r.sourceOverrides = (arrival.corrections merged).filter w.current.canOverride ∧
        r.targetOverrides = Arrival.startOverrides w.graph (w.timeline.period time)
          (arrival.corrections merged)) := by
  unfold reconciliation at h
  dsimp only at h
  split at h
  · cases h
    exact ⟨rfl, rfl, rfl, nofun⟩
  next merged hm =>
    obtain ⟨found, hf, h⟩ := bind_eq_ok.mp h
    cases found with
    | none =>
      cases h
      exact ⟨rfl, rfl, rfl, nofun⟩
    | some arrival =>
      cases h
      exact ⟨rfl, rfl, rfl, fun _ => ⟨merged, arrival, hm, hf, rfl, rfl⟩⟩

theorem accepts_of_reconciliation (hg : w.graph.WellFormed) {cause : Variable} {time : Int}
    {r : ReconciliationReport} (h : w.reconciliation cause time = .ok r) (hs : r.success = true) :
    w.current.Accepts r.sourceOverrides ∧
      (w.timeline.period r.target).Accepts r.targetOverrides := by
  obtain ⟨_, _, rfl, hsuccess⟩ := reconciliation_eq_ok h
  obtain ⟨merged, arrival, _, _, hsource, htarget⟩ := hsuccess hs
  rw [hsource, htarget]
  exact ⟨accepts_filter _ _, accepts_startOverrides hg _ _⟩

/-- **A reconciliation ends as settled**: nothing that the history pins fails to be written. -/
theorem reconcileWith_run (hg : w.graph.WellFormed) (cause : Variable) (time : Int) :
    (reconcileWith cause time).run w =
      match w.reconciliation cause time with
      | .error e => (.error e, w)
      | .ok r => (.ok (), (w.reconciled r).reported r) := by
  unfold reconcileWith reconciliation
  rw [run_get_bind]
  extract_lets g source target report known started
  cases hm : g.merge known started with
  | none => rfl
  | some merged =>
    dsimp only
    rcases hf : Arrival.find g merged target with e | _ | arrival
    · rfl
    · rfl
    · have hsource := overrideEach_of_accepts (accepts_filter source (arrival.corrections merged))
      have htarget := overrideEach_of_accepts
        (accepts_startOverrides hg target (arrival.corrections merged))
      show ((liftM (overrideEach _ source) : Action Period) >>= _).run w = _
      rw [hsource]
      show ((liftM (overrideEach _ target) : Action Period) >>= _).run _ = _
      rw [htarget]
      rfl

theorem period_setPeriod_of_ne {p : Period} {time : Int} (hne : p.time ≠ time) :
    (w.setPeriod p).timeline.period time = w.timeline.period time := by
  show (w.timeline.put p).period time = _
  rw [Timeline.period_put, if_neg hne]

theorem stays_reconcileWith (hg : w.graph.WellFormed) (cause : Variable) {time : Int}
    (ht : w.now < time) : Stays Correction (reconcileWith cause time) w := by
  unfold Stays
  rw [reconcileWith_run hg]
  cases hr : w.reconciliation cause time with
  | error e => exact ReflTransGen.refl
  | ok r =>
    refine ReflTransGen.tail ?_ (.reported r)
    unfold reconciled
    split
    next hs =>
      obtain ⟨hsource, htarget⟩ := accepts_of_reconciliation hg hr hs
      obtain ⟨_, _, rfl, _⟩ := reconciliation_eq_ok hr
      have hother : (w.setPeriod (w.current.overridden r.sourceOverrides.entries)).timeline.period
          r.target = w.timeline.period r.target := by
        refine period_setPeriod_of_ne ?_
        have hnow : w.current.time = w.now := w.timeline.time_period w.now
        rw [Period.time_overridden]
        omega
      have hfirst : Correction w _ := .overridden w.now _ hsource
      rw [← hother] at htarget
      have hsecond := Correction.overridden r.target _ htarget
      rw [hother] at hsecond
      exact (ReflTransGen.single hfirst).tail hsecond
    next => exact ReflTransGen.refl

theorem stays_reconcileWithAll (hg : w.graph.WellFormed) (cause : Variable) {l : List Int}
    (hl : ∀ time ∈ l, w.now < time) : Stays Correction (reconcileWithAll cause l) w := by
  induction l generalizing w with
  | nil => exact stays_pure () w
  | cons time rest ih =>
    refine stays_bind (stays_reconcileWith hg cause (hl time List.mem_cons_self)) ?_
    intro _ w' _ hw
    have hevolves := evolves_of_aftermath (aftermath_of_corrections hw)
    refine ih (graph_eq_of_evolves hevolves ▸ hg) ?_
    intro time' ht'
    rw [now_eq_of_evolves hevolves]
    exact hl time' (List.mem_cons_of_mem time ht')

theorem stays_reconcileFuture (hg : w.graph.WellFormed) (cause : Variable) :
    Stays Correction (reconcileFuture cause) w := by
  refine stays_get_bind (stays_reconcileWithAll hg cause ?_)
  intro time ht
  simpa using (List.mem_filter.mp ht).2

theorem stays_reconcileFirings (hg : w.graph.WellFormed) (l : List Variable) :
    Stays Correction (reconcileFirings l) w := by
  induction l generalizing w with
  | nil => exact stays_pure () w
  | cons t rest ih =>
    unfold reconcileFirings
    apply stays_get_bind
    refine stays_when (fun _ => stays_reconcileFuture hg t) ?_
    intro w' hw
    exact ih (graph_eq_of_aftermath (aftermath_of_corrections hw) ▸ hg)

/-! ### Writes -/

theorem mem_triggersDependentOn {g : Graph} (hg : g.WellFormed) {name : String} {t : Variable}
    (h : t ∈ g.triggersDependentOn name) : t ∈ g.declared ∧ t.isTriggered = true := by
  obtain ⟨h, hk⟩ := List.mem_filter.mp h
  exact ⟨(hg.mem_order_iff.mp (List.mem_of_mem_filter h)).1, hk⟩

/-- A write up to the latches: it looks at what it replaces, modifies it, and reconciles what is
irreversible. -/
def settle (v : Variable) (b : Bool) : Action Unit := do
  let w ← get
  if !v.isMutable then throw (.notMutable v.name v.kind)
  let prior ← if w.settings.observeOnWrite then read v.symbol else w.peek v.symbol
  if !v.isReversible && prior != v.default && b == v.default then throw (.irreversible v.name)
  modifyCurrent fun p => p.modified w.graph v.name b
  if w.settings.observeOnWrite then modifyCurrent fun p => p.observed v.name b
  if !v.isReversible && w.settings.reconcileWrites then reconcileFuture v

theorem ite_bind {c : Prop} [Decidable c] (x y : Action α) (f : α → Action β) :
    (if c then x else y) >>= f = if c then x >>= f else y >>= f := by
  split
  · rfl
  · rfl

/-- **A write is settled**, and then latches are examined, and those that fired are reconciled. -/
theorem write_run_of_require {s : Symbol} {v : Variable} (hr : w.graph.require s = .ok v)
    (b : Bool) :
    (write s b).run w = (settle v b >>= fun _ =>
      fireAll (w.graph.triggersDependentOn v.name) >>= reconcileFirings).run w := by
  obtain ⟨_, rfl⟩ := Graph.require_eq_ok hr
  unfold write settle
  rw [bind_assoc, run_get_bind, run_get_bind, hr]
  simp only [ite_bind, bind_assoc, pure_bind]
  rfl

theorem calm_modified {v : Variable} (hv : v ∈ w.graph.declared) (hm : v.isMutable = true)
    (b : Bool) : Calm w (w.setPeriod (w.current.modified w.graph v.name b)) where
  change := .modified v b hv hm
  antecedents := antecedents_setPeriod
    ((Period.time_modified _ _ _).trans (w.timeline.time_period w.now))
    (Period.antecedents_modified _ _ _)

/-- **No latch fires before a write is settled**, even if it is refused. -/
theorem stays_settle (hg : w.graph.WellFormed) {v : Variable} (hv : v ∈ w.graph.declared)
    (b : Bool) : Stays Calm (settle v b) w := by
  unfold settle
  apply stays_get_bind
  extract_lets reconcileThen modifyThen checkThen readThen
  have hreconcile : ∀ w', w'.graph = w.graph → Stays Calm (reconcileThen ()) w' := by
    intro w' hw
    show Stays Calm (if _ then _ else _) w'
    split
    · exact (stays_reconcileFuture (hw ▸ hg) v).mono fun _ _ hc => hc.calm
    · exact stays_pure () w'
  have hmodify : ∀ w', w'.graph = w.graph → v.isMutable = true → Stays Calm (modifyThen ()) w' := by
    intro w' hw hm
    have hd := Variable.isDerived_of_isMutable hm
    rw [← hw] at hv hg
    refine stays_bind (x := modifyCurrent fun p => p.modified w.graph v.name b)
      (stays_modify (hw ▸ calm_modified hv hm b)) ?_
    rintro _ w'' ⟨⟩ hw''
    have hcurrent := current_setPeriod (w := w') (p := w'.current.modified w'.graph v.name b)
      ((Period.time_modified _ _ _).trans (w'.timeline.time_period w'.now))
    refine stays_when (fun _ => stays_modify (calm_observed hv ?_)) fun w'' hw' => ?_
    · intro c hc
      rw [← hw, hcurrent, Period.peek_modified_self hg hv hd] at hc
      exact (Option.some.inj hc).symm
    · exact hreconcile w'' ((graph_eq_of_calm hw').trans hw)
  have hcheck : ∀ prior w', w'.graph = w.graph → v.isMutable = true →
      Stays Calm (checkThen prior) w' := by
    intro prior w' hw hm
    refine stays_when (fun _ => stays_throw _ w') fun w'' hw' => ?_
    exact hmodify w'' ((graph_eq_of_calm hw').trans hw) hm
  split
  · exact stays_throw _ w
  next hm =>
    have hm : v.isMutable = true := by simpa using hm
    show Stays Calm (readThen ()) w
    dsimp only [readThen]
    split
    · exact stays_bind (stays_read v.symbol w) fun prior w' _ hw =>
        hcheck prior w' (graph_eq_of_calm hw) hm
    · exact stays_lift_bind fun prior _ => hcheck prior w rfl hm

theorem write_run_foreign {s : Symbol} {e : Error} (hr : w.graph.require s = .error e) (b : Bool) :
    (write s b).run w = (.error e, w) := by
  unfold write
  rw [run_get_bind, hr]
  rfl

theorem stays_examine (hg : w.graph.WellFormed) (name : String) :
    Stays Aftermath (fireAll (w.graph.triggersDependentOn name) >>= reconcileFirings) w := by
  refine stays_bind (stays_fireAll hg fun t ht => mem_triggersDependentOn hg ht) ?_
  intro l w' _ hw
  exact (stays_reconcileFirings (graph_eq_of_aftermath hw ▸ hg) l).aftermath

/-- **A write stays** at the present time, even if it is refused. -/
theorem stays_write (hg : w.graph.WellFormed) (s : Symbol) (b : Bool) :
    Stays Change (write s b) w := by
  unfold Stays
  cases hr : w.graph.require s with
  | error e => rw [write_run_foreign hr]
  | ok v =>
    obtain ⟨hv, rfl⟩ := Graph.require_eq_ok hr
    rw [write_run_of_require hr]
    have hsettled := (stays_settle hg hv b).mono fun _ _ hc => hc.change
    refine stays_bind hsettled fun _ w' _ hw => ?_
    have hsame := graph_eq_of_evolves hw
    rw [← hsame] at hg ⊢
    exact (stays_examine hg v.name).evolves

end World

end Chronicle
