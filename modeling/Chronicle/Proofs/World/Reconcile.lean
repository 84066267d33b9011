import Chronicle.Proofs.Arrival.Correct
import Chronicle.Proofs.World.Operate

/-!
# Reconciliations one after another

A reconciliation with later periods goes from one to the next, and each changes two periods: the
present, and the one that it is about (`current_reconciled`, `period_reconciled`).  All that a
success fixes are open starts of mutables, away from their defaults (`Period.Corrected`), so neither
what has a rule nor what was known is touched.

`Reconciles` is the run of the loop with its reports, one for each later period; it comes apart at
every report (`Reconciles.split`).  The present only gains by it, and only what the reports name
(`Reconciles.record_current`), while a period that is not among those to come stays as it is
(`Reconciles.period_of_notMem`).
-/

namespace Chronicle

namespace Period

variable {g : Graph} {p p' : Period} {v : Variable} {name : String} {b : Bool}

/-- The period with open starts of mutables fixed, away from their defaults. -/
structure Corrected (g : Graph) (p p' : Period) (o : Valuation) : Prop where
  eq : p' = p.overridden o.entries
  accepts : p.Accepts o
  mutables : ∀ name b, o.get? name = some b →
    ∃ m ∈ g.declared, m.name = name ∧ m.isMutable = true ∧ b = !m.default

variable {o : Valuation}

theorem Corrected.antecedents (h : p.Corrected g p' o) : p'.antecedentList = p.antecedentList := by
  rw [h.eq, antecedentList, antecedents_overridden, antecedentList]

theorem Corrected.record_eq (hg : g.WellFormed) (h : p.Corrected g p' o) (hv : v ∈ g.declared)
    (hm : v.isMutable = false) : p'.record v.name = p.record v.name := by
  rw [h.eq]
  refine record_overridden_none ?_
  by_contra hn
  obtain ⟨b, hb⟩ := Option.ne_none_iff_exists'.mp hn
  obtain ⟨m, hmem, he, hmut, _⟩ := h.mutables v.name b hb
  rw [hg.eq_of_name hmem hv he, hm] at hmut
  cases hmut

/-- **What is known after a correction**: what was known, and the corrections. -/
theorem Corrected.peek_eq (hg : g.WellFormed) (h : p.Corrected g p' o) (ha : p.Aligned g)
    (hv : v ∈ g.declared) : p'.peek v.name = (p.peek v.name).or (o.get? v.name) := by
  rw [h.eq]
  refine ha.peek_overridden h.accepts hv ?_
  intro b hb
  obtain ⟨m, hmem, he, hmut, _⟩ := h.mutables v.name b hb
  rw [← hg.eq_of_name hmem hv he]
  exact Variable.isDerived_of_isMutable hmut

theorem Corrected.aligned (h : p.Corrected g p' o) (ha : p.Aligned g) : p'.Aligned g := by
  rw [h.eq]
  exact ha.overridden h.accepts

end Period

theorem Log.entries_foldl_push {α : Type} (log : Log α) (l : List α)
    (h : log.entries.length + l.length ≤ log.capacity) :
    (l.foldl Log.push log).entries = log.entries ++ l := by
  induction l generalizing log with
  | nil => simp
  | cons a rest ih =>
    rw [List.length_cons] at h
    have hroom : log.entries.length + 1 - log.capacity = 0 := by omega
    have hpush : (log.push a).entries = log.entries ++ [a] := by
      simp [Log.push, hroom]
    have hcapacity : (log.push a).capacity = log.capacity := rfl
    rw [List.foldl_cons, ih, hpush, List.append_assoc, List.singleton_append]
    rw [hpush, hcapacity, List.length_append, List.length_singleton]
    omega

theorem Log.eq_entries_of_foldl_push {α : Type} {log log' : Log α} {l : List α}
    (h : log' = l.foldl Log.push log) (hnone : log.entries = []) (hroom : l.length ≤ log.capacity) :
    l = log'.entries := by
  have hfit : log.entries.length + l.length ≤ log.capacity := by
    rw [hnone, List.length_nil]
    omega
  rw [h, Log.entries_foldl_push log l hfit, hnone, List.nil_append]

namespace World

open Relation (ReflTransGen)

variable {g : Graph} {w w' : World} {cause v : Variable} {time : Int} {times : List Int}
  {r : ReconciliationReport} {rs before after : List ReconciliationReport} {name : String}

/-! ### One reconciliation -/

theorem reconciled_eq (w : World) (r : ReconciliationReport) :
    (w.reconciled r).graph = w.graph ∧ (w.reconciled r).now = w.now ∧
      (w.reconciled r).settings = w.settings ∧
      (w.reconciled r).reconciliationLog = w.reconciliationLog := by
  unfold reconciled
  split
  · exact ⟨rfl, rfl, rfl, rfl⟩
  · exact ⟨rfl, rfl, rfl, rfl⟩

theorem reconciled_of_failure (h : r.success = false) : w.reconciled r = w := by
  rw [reconciled, h, if_neg Bool.false_ne_true]

section

variable (hs : r.success = true)

include hs

theorem current_reconciled (hne : r.target ≠ w.now) :
    (w.reconciled r).current = w.current.overridden r.sourceOverrides.entries := by
  rw [reconciled, if_pos hs]
  show (Timeline.put _ _).period w.now = _
  rw [Timeline.period_put, Period.time_overridden, Timeline.time_period, if_neg hne]
  exact current_setPeriod ((Period.time_overridden _ _).trans (time_current w))

theorem period_reconciled :
    (w.reconciled r).timeline.period r.target =
      (w.timeline.period r.target).overridden r.targetOverrides.entries := by
  rw [reconciled, if_pos hs]
  show (Timeline.put _ _).period r.target = _
  rw [Timeline.period_put, Period.time_overridden, Timeline.time_period, if_pos rfl]

end

theorem period_reconciled_of_ne (hnow : time ≠ w.now) (htarget : time ≠ r.target) :
    (w.reconciled r).timeline.period time = w.timeline.period time := by
  unfold reconciled
  split
  · rw [period_setPeriod_of_ne, period_setPeriod_of_ne]
    · rw [Period.time_overridden, time_current]
      exact hnow.symm
    · rw [Period.time_overridden, Timeline.time_period]
      exact htarget.symm
  · rfl

/-- **What a success fixes** are open starts of mutables, in the present and in the target. -/
theorem corrected_of_reconciliation (hg : w.graph.WellFormed)
    (h : w.reconciliation cause time = .ok r) (hs : r.success = true) (hne : time ≠ w.now) :
    w.current.Corrected w.graph (w.reconciled r).current r.sourceOverrides ∧
      (w.timeline.period time).Corrected w.graph ((w.reconciled r).timeline.period time)
        r.targetOverrides := by
  obtain ⟨hsource, htarget⟩ := accepts_of_reconciliation hg h hs
  obtain ⟨_, _, rfl, hsuccess⟩ := reconciliation_eq_ok h
  obtain ⟨merged, arrival, _, hfind, hso, hto⟩ := hsuccess hs
  have hfits := Arrival.fits_of_find hfind
  refine ⟨⟨current_reconciled hs hne, hsource, ?_⟩, ⟨period_reconciled hs, htarget, ?_⟩⟩
  · intro name b hb
    rw [hso, Table.get?_filter] at hb
    split at hb
    · exact (hfits.corrections_eq_some hg hb).2.2
    · cases hb
  · intro name b hb
    rw [hto] at hb
    obtain ⟨_, _, rfl, _, hb, _⟩ := Arrival.startOverrides_eq_some hg hb
    exact (hfits.corrections_eq_some hg hb).2.2

theorem exists_reconciliation (hg : w.graph.WellFormed) (hl : w.graph.IsLocal) (cause : Variable)
    (hd : (w.timeline.period time).FiringsDeclared w.graph) :
    ∃ r, w.reconciliation cause time = .ok r := by
  unfold reconciliation
  dsimp only
  split
  · exact ⟨_, rfl⟩
  next merged _ =>
    rcases Arrival.find_cases hg hl (hd.declared hg) merged with ⟨arrival, hf, _⟩ | ⟨hf, _⟩
    · rw [hf]
      exact ⟨_, rfl⟩
    · rw [hf]
      exact ⟨_, rfl⟩

/-! ### The loop -/

/-- Reconciliations with the periods at some times, one after another, and their reports. -/
inductive Reconciles (cause : Variable) :
    World → List Int → List ReconciliationReport → World → Prop
  | nil (w : World) : Reconciles cause w [] [] w
  | cons {w w' : World} {time : Int} {times : List Int} {r : ReconciliationReport}
      {rs : List ReconciliationReport} (first : w.reconciliation cause time = .ok r)
      (rest : Reconciles cause ((w.reconciled r).reported r) times rs w') :
      Reconciles cause w (time :: times) (r :: rs) w'

theorem reconcileWithAll_run_cons (hg : w.graph.WellFormed)
    (h : w.reconciliation cause time = .ok r) (times : List Int) :
    (reconcileWithAll cause (time :: times)).run w =
      (reconcileWithAll cause times).run ((w.reconciled r).reported r) := by
  have hrun := reconcileWith_run hg cause time
  rw [h] at hrun
  exact run_bind_ok hrun

theorem reconciles_of_run (hg : w.graph.WellFormed)
    (h : (reconcileWithAll cause times).run w = (.ok (), w')) :
    ∃ rs, Reconciles cause w times rs w' := by
  induction times generalizing w with
  | nil =>
    cases h
    exact ⟨[], .nil _⟩
  | cons time rest ih =>
    cases hr : w.reconciliation cause time with
    | error e =>
      have hrun := reconcileWith_run hg cause time
      rw [hr] at hrun
      have herror : (reconcileWithAll cause (time :: rest)).run w = (.error e, w) := by
        show (reconcileWith cause time >>= _).run w = _
        rw [run_bind, hrun]
      rw [herror] at h
      cases h
    | ok r =>
      rw [reconcileWithAll_run_cons hg hr] at h
      obtain ⟨rs, hrest⟩ := ih (w := (w.reconciled r).reported r) ((reconciled_eq w r).1 ▸ hg) h
      exact ⟨r :: rs, .cons hr hrest⟩

namespace Reconciles

theorem graph_eq (h : Reconciles cause w times rs w') : w'.graph = w.graph := by
  induction h with
  | nil w => rfl
  | cons _ _ ih => exact ih.trans (reconciled_eq _ _).1

theorem now_eq (h : Reconciles cause w times rs w') : w'.now = w.now := by
  induction h with
  | nil w => rfl
  | cons _ _ ih => exact ih.trans (reconciled_eq _ _).2.1

theorem aftermath (hg : w.graph.WellFormed) (h : Reconciles cause w times rs w')
    (hlater : ∀ time ∈ times, w.now < time) : ReflTransGen Aftermath w w' := by
  induction h with
  | nil w => exact ReflTransGen.refl
  | @cons w w' time times r rs first rest ih =>
    have hrun := reconcileWith_run hg cause time
    rw [first] at hrun
    have hstays := stays_reconcileWith hg cause (hlater time List.mem_cons_self)
    refine (hstays.aftermath.path hrun).trans (ih ((reconciled_eq w r).1 ▸ hg) ?_)
    intro other ho
    show (w.reconciled r).now < other
    rw [(reconciled_eq w r).2.1]
    exact hlater other (List.mem_cons_of_mem time ho)

theorem log_eq (h : Reconciles cause w times rs w') :
    w'.reconciliationLog = rs.foldl Log.push w.reconciliationLog := by
  induction h with
  | nil w => rfl
  | @cons w w' _ _ r _ _ _ ih =>
    rw [List.foldl_cons, ← (reconciled_eq w r).2.2.2]
    exact ih

theorem targets_eq (h : Reconciles cause w times rs w') :
    rs.map ReconciliationReport.target = times := by
  induction h with
  | nil w => rfl
  | cons first _ ih => rw [List.map_cons, ih, (reconciliation_eq_ok first).2.2.1]

/-- **The loop comes apart at every report.** -/
theorem split (h : Reconciles cause w times rs w') (hrs : rs = before ++ r :: after) :
    ∃ earlier later w₁, times = earlier ++ r.target :: later ∧
      Reconciles cause w earlier before w₁ ∧ w₁.reconciliation cause r.target = .ok r ∧
      Reconciles cause ((w₁.reconciled r).reported r) later after w' := by
  induction h generalizing before with
  | nil w => simp at hrs
  | @cons w w' time times r' rs first rest ih =>
    cases before with
    | nil =>
      obtain ⟨rfl, rfl⟩ := List.cons.inj hrs
      have htarget := (reconciliation_eq_ok first).2.2.1
      exact ⟨[], times, w, by rw [htarget]; rfl, .nil w, htarget ▸ first, rest⟩
    | cons x before =>
      obtain ⟨rfl, htail⟩ := List.cons.inj hrs
      obtain ⟨earlier, later, w₁, htimes, hbefore, hat, hafter⟩ := ih htail
      exact ⟨time :: earlier, later, w₁, by rw [htimes]; rfl, .cons first hbefore, hat, hafter⟩

theorem period_of_notMem (h : Reconciles cause w times rs w') (hnow : time ≠ w.now)
    (hn : time ∉ times) : w'.timeline.period time = w.timeline.period time := by
  induction h with
  | nil w => rfl
  | @cons w w' other times r rs first rest ih =>
    rw [List.mem_cons, not_or] at hn
    obtain ⟨_, _, rfl, _⟩ := reconciliation_eq_ok first
    have hkept : ((w.reconciled r).reported r).timeline.period time = w.timeline.period time :=
      period_reconciled_of_ne hnow hn.1
    rw [ih ((reconciled_eq w r).2.1 ▸ hnow) hn.2, hkept]

/-- **What the loop leaves of a record of the present**: it is as it was, or its open start is as
some report says. -/
theorem record_current (hg : w.graph.WellFormed) (h : Reconciles cause w times rs w')
    (hlater : ∀ time ∈ times, w.now < time) (name : String) :
    w'.current.record name = w.current.record name ∨
      ∃ r ∈ rs, ∃ b, r.sourceOverrides.get? name = some b ∧ w.current.canOverride name = true ∧
        (∃ m ∈ w.graph.declared, m.name = name ∧ m.isMutable = true) ∧
        w'.current.record name = { w.current.record name with startOverride := some b } := by
  induction h with
  | nil w => exact Or.inl rfl
  | @cons w w' time times r rs first rest ih =>
    have hnow : ((w.reconciled r).reported r).now = w.now := (reconciled_eq w r).2.1
    have ih := ih ((reconciled_eq w r).1 ▸ hg)
      (fun time ht => hnow ▸ hlater time (List.mem_cons_of_mem _ ht))
    have hcurrent : ((w.reconciled r).reported r).current = (w.reconciled r).current := rfl
    have hgraph : ((w.reconciled r).reported r).graph = w.graph := (reconciled_eq w r).1
    rw [hcurrent, hgraph] at ih
    cases hs : r.success with
    | false =>
      rw [reconciled_of_failure hs] at ih
      rcases ih with hsame | ⟨r', hr', b, hb⟩
      · exact Or.inl hsame
      · exact Or.inr ⟨r', List.mem_cons_of_mem r hr', b, hb⟩
    | true =>
      have hne : time ≠ w.now := by
        have := hlater time List.mem_cons_self
        omega
      obtain ⟨hsource, _⟩ := corrected_of_reconciliation hg first hs hne
      rw [hsource.eq] at ih
      cases hn : r.sourceOverrides.get? name with
      | none =>
        have hrecord : (w.current.overridden r.sourceOverrides.entries).record name =
            w.current.record name := Period.record_overridden_none hn
        rw [Period.canOverride, hrecord] at ih
        rcases ih with hsame | ⟨r', hr', b, hb⟩
        · exact Or.inl hsame
        · exact Or.inr ⟨r', List.mem_cons_of_mem r hr', b, hb⟩
      | some b =>
        -- What has been fixed is open no more.
        have hrecord : (w.current.overridden r.sourceOverrides.entries).record name =
            { w.current.record name with startOverride := some b } :=
          Period.record_overridden_some hn
        obtain ⟨m, hm, he, hmut, _⟩ := hsource.mutables name b hn
        refine Or.inr ⟨r, List.mem_cons_self, b, hn,
          hsource.accepts name (Table.contains_iff.mpr ⟨b, hn⟩), ⟨m, hm, he, hmut⟩, ?_⟩
        rcases ih with hsame | ⟨_, _, _, _, ho, _⟩
        · rw [hsame, hrecord]
        · rw [Period.canOverride, hrecord] at ho
          cases ho

end Reconciles

end World

end Chronicle
