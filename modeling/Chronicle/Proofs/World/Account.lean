import Chronicle.Proofs.World.Reliance

/-!
# The ledger and the reports agree

A start value is fixed by a journey that arrives or by a reconciliation that succeeds, and each of
them reports it.  What the logs hold makes no difference to what a call does, so every call comes
with the list of the reports that it adds (`Accounts`), and these account for the start values that
it fixes (`Accounted`): between two worlds the starts that have been fixed are those that the
reports announce in between, one for one.

A start is fixed once.  So in a history of which no report has been dropped a start is fixed to a
value if and only if one report announces it, and no other report announces any value for it
(`ledger_and_reports_agree`).
-/

namespace Chronicle

inductive Report
  | travel (r : TravelReport)
  | reconciliation (r : ReconciliationReport)

namespace Report

def travel? : Report → Option TravelReport
  | travel r => some r
  | reconciliation _ => none

def reconciliation? : Report → Option ReconciliationReport
  | travel _ => none
  | reconciliation r => some r

/-- A journey has arrived, or a reconciliation has succeeded. -/
def IsCarriedOut : Report → Prop
  | travel r => r.verdict = .arrived ∧ r.dryRun = false
  | reconciliation r => r.success = true

/-- The values that the report lists for the start of a variable in the period at a time. -/
def announced (time : Int) (name : String) : Report → List Bool
  | travel r => if r.destination = time then (r.overrides.get? name).toList else []
  | reconciliation r =>
    (if r.source = time then (r.sourceOverrides.get? name).toList else []) ++
      if r.target = time then (r.targetOverrides.get? name).toList else []

/-- Journeys first, as two logs have them. -/
def sorted (l : List Report) : List Report :=
  (l.filterMap travel?).map travel ++ (l.filterMap reconciliation?).map reconciliation

theorem perm_sorted (l : List Report) : (sorted l).Perm l := by
  induction l with
  | nil => exact .refl _
  | cons r rest ih =>
    cases r with
    | travel r => exact ih.cons _
    | reconciliation r => exact List.perm_middle.trans (ih.cons _)

/-- One announcement is made by one report. -/
theorem exists_of_flatMap_eq_singleton {f : Report → List Bool} {l : List Report} {b : Bool}
    (h : l.flatMap f = [b]) :
    ∃ before r after, l = before ++ r :: after ∧ f r = [b] ∧
      ∀ other ∈ before ++ after, f other = [] := by
  induction l with
  | nil => cases h
  | cons r rest ih =>
    rw [List.flatMap_cons, List.append_eq_singleton_iff] at h
    rcases h with ⟨hr, hrest⟩ | ⟨hr, hrest⟩
    · obtain ⟨before, r', after, rfl, hr', hothers⟩ := ih hrest
      exact ⟨r :: before, r', after, rfl, hr', List.forall_mem_cons.mpr ⟨hr, hothers⟩⟩
    · exact ⟨[], r, rest, rfl, hr, List.flatMap_eq_nil_iff.mp hrest⟩

end Report

namespace Log

variable {α : Type}

theorem size_foldl_push (log : Log α) (l : List α) (h : log.size ≤ log.capacity) :
    (l.foldl push log).size = min (log.size + l.length) log.capacity := by
  induction l generalizing log with
  | nil => exact (Nat.min_eq_left h).symm
  | cons a rest ih =>
    have hpush : (log.push a).size = min (log.size + 1) log.capacity := by
      simp only [size, push, List.length_drop, List.length_append, List.length_singleton]
      omega
    have hcapacity : (log.push a).capacity = log.capacity := rfl
    rw [List.foldl_cons, ih _ (by omega), hpush, hcapacity, List.length_cons]
    omega

theorem length_le_of_size_lt {capacity : Nat} {l : List α}
    (h : (l.foldl push (empty capacity)).size < capacity) : l.length ≤ capacity := by
  have hsize : (l.foldl push (empty capacity)).size = min (0 + l.length) capacity :=
    size_foldl_push (empty capacity) l (Nat.zero_le _)
  omega

end Log

namespace Period

variable {g : Graph} {p q : Period} {o : Valuation}

/-- The period with the same overrides at the same time. -/
structure SameOverrides (p q : Period) : Prop where
  time : q.time = p.time
  startOverride : ∀ name, (q.record name).startOverride = (p.record name).startOverride

theorem sameOverrides_observed (p : Period) (name : String) (b : Bool) :
    p.SameOverrides (p.observed name b) where
  time := rfl
  startOverride := by
    intro other
    rw [record_observed]
    split
    next he => rw [← he, Record.observed]
    next => rfl

theorem sameOverrides_modified (g : Graph) (p : Period) (name : String) (b : Bool) :
    p.SameOverrides (p.modified g name b) where
  time := time_modified p name b
  startOverride := by
    intro other
    have hunsettle : ∀ (l : List Variable) (q : Period),
        ((l.foldl (unsettle g) q).record other).startOverride =
          (q.record other).startOverride := by
      intro l
      induction l with
      | nil => exact fun _ => rfl
      | cons v rest ih =>
        intro q
        rw [List.foldl_cons, ih, unsettle, record_setRecord]
        split
        next he => rw [← he, Record.unsettled]
        next => rfl
    rw [modified, hunsettle, record_setRecord]
    split
    next he => rw [← he, Record.modified]
    next => rfl

theorem sameOverrides_triggered (g : Graph) (p : Period) (t : Variable) :
    p.SameOverrides (p.triggered g t) where
  time := time_triggered p t
  startOverride :=
    (sameOverrides_modified g (p.recordAntecedent g t) t.name true).startOverride

theorem Accepts.startOverride_overridden (h : p.Accepts o) (name : String) :
    ((p.overridden o.entries).record name).startOverride.toList =
      (p.record name).startOverride.toList ++ (o.get? name).toList := by
  cases hn : o.get? name with
  | none => rw [record_overridden_none hn, Option.toList_none, List.append_nil]
  | some b =>
    have hopen := (canOverride_iff.mp (h name (Table.contains_iff.mpr ⟨b, hn⟩))).1
    rw [Record.knownStart, Option.or_eq_none_iff] at hopen
    rw [record_overridden_some hn, hopen.1]
    rfl

end Period

namespace World

variable {g : Graph} {w w' w'' : World} {l l' : List Report} {α β : Type}

/-- How the start of a variable was fixed in the period at a time. -/
def override (w : World) (time : Int) (name : String) : Option Bool :=
  ((w.timeline.period time).record name).startOverride

def reports (w : World) : List Report :=
  w.travelLog.entries.map .travel ++ w.reconciliationLog.entries.map .reconciliation

def relogged (w : World) (travels : Log TravelReport)
    (reconciliations : Log ReconciliationReport) : World :=
  { w with travelLog := travels, reconciliationLog := reconciliations }

/-- The world with reports added to its logs. -/
def received (w : World) (l : List Report) : World :=
  w.relogged ((l.filterMap Report.travel?).foldl Log.push w.travelLog)
    ((l.filterMap Report.reconciliation?).foldl Log.push w.reconciliationLog)

theorem received_append (w : World) (l l' : List Report) :
    w.received (l ++ l') = (w.received l).received l' := by
  unfold received relogged
  rw [List.filterMap_append, List.filterMap_append, List.foldl_append, List.foldl_append]

/-! ### Reports account for overrides -/

/-- The starts that have been fixed between two worlds are those that the reports announce, and only
what was carried out announces any. -/
structure Accounted (w : World) (l : List Report) (w' : World) : Prop where
  overrides : ∀ time name, (w'.override time name).toList =
    (w.override time name).toList ++ l.flatMap (Report.announced time name)
  carriedOut : ∀ r ∈ l, ∀ time name, r.announced time name ≠ [] → r.IsCarriedOut

theorem Accounted.trans (h : Accounted w l w') (h' : Accounted w' l' w'') :
    Accounted w (l ++ l') w'' where
  overrides := by
    intro time name
    rw [h'.overrides, h.overrides, List.flatMap_append, List.append_assoc]
  carriedOut := by
    intro r hr
    rcases List.mem_append.mp hr with hr | hr
    · exact h.carriedOut r hr
    · exact h'.carriedOut r hr

theorem accounted_nil (h : ∀ time name, w'.override time name = w.override time name) :
    Accounted w [] w' where
  overrides := by
    intro time name
    rw [h, List.flatMap_nil, List.append_nil]
  carriedOut := fun _ hr => nomatch hr

theorem accounted_silent {r : Report}
    (h : ∀ time name, w'.override time name = w.override time name)
    (hr : ∀ time name, r.announced time name = []) : Accounted w [r] w' where
  overrides := by
    intro time name
    rw [h, List.flatMap_cons, hr, List.flatMap_nil, List.append_nil, List.append_nil]
  carriedOut := by
    intro r' hr' time name hsome
    rw [List.mem_singleton.mp hr', hr] at hsome
    exact absurd rfl hsome

theorem override_setPeriod {p : Period} {time : Int}
    (h : (w.timeline.period time).SameOverrides p) (other : Int) (name : String) :
    (w.setPeriod p).override other name = w.override other name := by
  show (((w.timeline.put p).period other).record name).startOverride = _
  rw [Timeline.period_put, h.time, Timeline.time_period]
  split
  next he => rw [h.startOverride, he, override]
  next => rfl

theorem override_overridden {time : Int} {o : Valuation} (h : (w.timeline.period time).Accepts o)
    (other : Int) (name : String) :
    ((w.setPeriod ((w.timeline.period time).overridden o.entries)).override other name).toList =
      (w.override other name).toList ++ if time = other then (o.get? name).toList else [] := by
  show (((w.timeline.put _).period other).record name).startOverride.toList = _
  rw [Timeline.period_put, Period.time_overridden, Timeline.time_period]
  split
  next he => rw [h.startOverride_overridden, he, override]
  next => rw [List.append_nil, override]

/-! ### Operations that account for what they fix -/

/-- Whatever the logs hold, the operation does the same and adds the same reports to them, which
account for the starts that it fixes. -/
def Accounts (act : Action α) (w : World) : Prop :=
  ∃ l, (∀ travels reconciliations, act.run (w.relogged travels reconciliations) =
      ((act.run w).1, ((act.run w).2.relogged travels reconciliations).received l)) ∧
    Accounted w l (act.run w).2

theorem accounts_of_run {act : Action α} (res : Except Error α) (w' : World)
    (h : ∀ travels reconciliations, act.run (w.relogged travels reconciliations) =
      (res, (w'.relogged travels reconciliations).received l))
    (haccounted : Accounted w l w') : Accounts act w := by
  have hself : act.run w = _ := h w.travelLog w.reconciliationLog
  refine ⟨l, ?_, ?_⟩
  · intro travels reconciliations
    rw [h, hself]
    rfl
  · rw [hself]
    exact ⟨haccounted.overrides, haccounted.carriedOut⟩

theorem Accounts.congr {act act' : Action α} (h : Accounts act' w)
    (hrun : ∀ travels reconciliations, act.run (w.relogged travels reconciliations) =
      act'.run (w.relogged travels reconciliations)) : Accounts act w := by
  obtain ⟨l, hrun', haccounted⟩ := h
  exact accounts_of_run _ _ (fun travels reconciliations =>
    (hrun travels reconciliations).trans (hrun' travels reconciliations)) haccounted

theorem accounts_pure (a : α) (w : World) : Accounts (pure a) w :=
  ⟨[], fun _ _ => rfl, accounted_nil fun _ _ => rfl⟩

theorem accounts_throw (e : Error) (w : World) : Accounts (throw e : Action α) w :=
  ⟨[], fun _ _ => rfl, accounted_nil fun _ _ => rfl⟩

theorem accounts_bind {x : Action α} {f : α → Action β} (hx : Accounts x w)
    (hf : ∀ a w', x.run w = (.ok a, w') → Accounts (f a) w') : Accounts (x >>= f) w := by
  obtain ⟨l, hrun, haccounted⟩ := hx
  rcases h : x.run w with ⟨e | a, w'⟩
  · rw [h] at hrun haccounted
    refine ⟨l, ?_, ?_⟩
    · intro travels reconciliations
      rw [run_bind, hrun, run_bind, h]
    · rw [run_bind, h]
      exact haccounted
  · obtain ⟨l', hrun', haccounted'⟩ := hf a w' h
    rw [h] at hrun haccounted
    refine ⟨l ++ l', ?_, ?_⟩
    · intro travels reconciliations
      rw [run_bind_ok (hrun travels reconciliations), run_bind_ok h, received_append]
      exact hrun' _ _
    · rw [run_bind_ok h]
      exact haccounted.trans haccounted'

theorem accounts_get_bind {f : World → Action β}
    (hf : ∀ travels reconciliations, f (w.relogged travels reconciliations) = f w)
    (h : Accounts (f w) w) : Accounts (get >>= f) w := by
  obtain ⟨l, hrun, haccounted⟩ := h
  refine ⟨l, ?_, haccounted⟩
  intro travels reconciliations
  rw [run_get_bind, hf]
  exact hrun travels reconciliations

theorem accounts_lift_bind {x : Except Error α} {f : α → Action β}
    (h : ∀ a, x = .ok a → Accounts (f a) w) : Accounts (liftM x >>= f) w := by
  cases x with
  | error e => exact accounts_throw e w
  | ok a => exact h a rfl

theorem accounts_modify {f : World → World}
    (hf : ∀ travels reconciliations,
      f (w.relogged travels reconciliations) = (f w).relogged travels reconciliations)
    (h : ∀ time name, (f w).override time name = w.override time name) :
    Accounts (modify f) w := by
  refine ⟨[], ?_, accounted_nil h⟩
  intro travels reconciliations
  show (Except.ok (), f (w.relogged travels reconciliations)) = _
  rw [hf]
  rfl

theorem accounts_modifyCurrent {f : Period → Period}
    (h : w.current.SameOverrides (f w.current)) : Accounts (modifyCurrent f) w :=
  accounts_modify (fun _ _ => rfl) (override_setPeriod h)

theorem accounts_when {c : Prop} [Decidable c] {x : Action Unit} {k : Unit → Action α}
    (hx : c → Accounts x w) (hk : ∀ w', (w' = w ∨ ∃ r, x.run w = (r, w')) → Accounts (k ()) w') :
    Accounts (if c then x >>= k else k ()) w := by
  split
  next h => exact accounts_bind (hx h) fun _ w' hrun => hk w' (Or.inr ⟨_, hrun⟩)
  next => exact hk w (Or.inl rfl)

theorem accounts_read (s : Symbol) (w : World) : Accounts (read s) w := by
  refine accounts_get_bind (fun _ _ => rfl) (accounts_lift_bind fun b _ => ?_)
  refine accounts_bind (accounts_modifyCurrent (Period.sameOverrides_observed _ _ b)) ?_
  exact fun _ w' _ => accounts_pure b w'

theorem accounts_fire (t : Variable) (w : World) : Accounts (fire t) w := by
  unfold fire
  refine accounts_get_bind (fun _ _ => rfl) ?_
  split
  · exact accounts_pure false w
  · refine accounts_lift_bind fun s _ => accounts_lift_bind fun b _ => ?_
    split
    · exact accounts_pure false w
    · refine accounts_bind (accounts_modifyCurrent
        (Period.sameOverrides_triggered w.graph _ t)) fun _ w' _ => ?_
      refine accounts_when (fun _ => accounts_modifyCurrent
        (Period.sameOverrides_observed _ t.name true)) fun w'' _ => accounts_pure true w''

theorem accounts_fireAll (l : List Variable) (w : World) : Accounts (fireAll l) w := by
  induction l generalizing w with
  | nil => exact accounts_pure [] w
  | cons t rest ih =>
    refine accounts_bind (accounts_fire t w) fun fired w' _ => ?_
    refine accounts_bind (ih w') fun others w'' _ => ?_
    exact accounts_pure _ w''

/-! ### Reconciliations -/

theorem overrides_of_failure {cause : Variable} {time : Int} {r : ReconciliationReport}
    (h : w.reconciliation cause time = .ok r) (hs : r.success = false) :
    r.sourceOverrides = .empty ∧ r.targetOverrides = .empty := by
  unfold reconciliation at h
  dsimp only at h
  split at h
  · cases h
    exact ⟨rfl, rfl⟩
  · obtain ⟨found, _, h⟩ := bind_eq_ok.mp h
    cases found with
    | none =>
      cases h
      exact ⟨rfl, rfl⟩
    | some arrival =>
      cases h
      cases hs

/-- **A reconciliation reports what it fixes** on both sides. -/
theorem accounted_reconciled (hg : w.graph.WellFormed) {cause : Variable} {time : Int}
    {r : ReconciliationReport} (hlater : w.now < time) (h : w.reconciliation cause time = .ok r) :
    Accounted w [.reconciliation r] (w.reconciled r) := by
  cases hs : r.success with
  | false =>
    obtain ⟨hsource, htarget⟩ := overrides_of_failure h hs
    rw [reconciled_of_failure hs]
    refine accounted_silent (fun _ _ => rfl) ?_
    intro time name
    rw [Report.announced, hsource, htarget, Table.get?_empty, Option.toList_none, ite_self,
      ite_self]
    rfl
  | true =>
    obtain ⟨_, hsource, rfl, _⟩ := reconciliation_eq_ok h
    obtain ⟨haccepts, haccepts'⟩ := accepts_of_reconciliation hg h hs
    have hother : (w.setPeriod (w.current.overridden r.sourceOverrides.entries)).timeline.period
        r.target = w.timeline.period r.target := by
      refine period_setPeriod_of_ne ?_
      rw [Period.time_overridden, time_current]
      omega
    refine ⟨?_, ?_⟩
    · intro time name
      rw [reconciled, if_pos hs, ← hother, override_overridden (hother ▸ haccepts')]
      show ((w.setPeriod ((w.timeline.period w.now).overridden _)).override time name).toList ++ _
        = _
      rw [override_overridden haccepts, List.append_assoc, List.flatMap_singleton, Report.announced,
        hsource]
    · intro r' hr' _ _ _
      rw [List.mem_singleton.mp hr']
      exact hs

theorem accounts_reconcileWith (hg : w.graph.WellFormed) (cause : Variable) {time : Int}
    (hlater : w.now < time) : Accounts (reconcileWith cause time) w := by
  cases hr : w.reconciliation cause time with
  | error e =>
    refine accounts_of_run (.error e) w (l := []) ?_ (accounted_nil fun _ _ => rfl)
    intro travels reconciliations
    have hr' : (w.relogged travels reconciliations).reconciliation cause time = .error e := hr
    rw [reconcileWith_run (w := w.relogged travels reconciliations) hg, hr']
    rfl
  | ok r =>
    refine accounts_of_run (.ok ()) (w.reconciled r) ?_ (accounted_reconciled hg hlater hr)
    intro travels reconciliations
    have hr' : (w.relogged travels reconciliations).reconciliation cause time = .ok r := hr
    rw [reconcileWith_run (w := w.relogged travels reconciliations) hg, hr']
    dsimp only
    rw [reconciled, reconciled]
    split
    · rfl
    · rfl

theorem accounts_reconcileWithAll (hg : w.graph.WellFormed) (cause : Variable) {times : List Int}
    (hlater : ∀ time ∈ times, w.now < time) : Accounts (reconcileWithAll cause times) w := by
  induction times generalizing w with
  | nil => exact accounts_pure () w
  | cons time rest ih =>
    have hfirst := hlater time List.mem_cons_self
    refine accounts_bind (accounts_reconcileWith hg cause hfirst) fun _ w' hrun => ?_
    have hpath := (stays_reconcileWith hg cause hfirst).aftermath.path hrun
    have hevolves := evolves_of_aftermath hpath
    refine ih (graph_eq_of_evolves hevolves ▸ hg) fun other ho => ?_
    rw [now_eq_of_evolves hevolves]
    exact hlater other (List.mem_cons_of_mem time ho)

theorem accounts_reconcileFuture (hg : w.graph.WellFormed) (cause : Variable) :
    Accounts (reconcileFuture cause) w := by
  refine accounts_get_bind (fun _ _ => rfl) (accounts_reconcileWithAll hg cause ?_)
  intro time ht
  simpa using (List.mem_filter.mp ht).2

theorem accounts_reconcileFirings (hg : w.graph.WellFormed) (l : List Variable) :
    Accounts (reconcileFirings l) w := by
  induction l generalizing w with
  | nil => exact accounts_pure () w
  | cons t rest ih =>
    unfold reconcileFirings
    refine accounts_get_bind (fun _ _ => rfl) ?_
    refine accounts_when (fun _ => accounts_reconcileFuture hg t) ?_
    rintro w' (rfl | ⟨r, hrun⟩)
    · exact ih hg
    · have hpath := (stays_reconcileFuture hg t).aftermath.path hrun
      exact ih (graph_eq_of_aftermath hpath ▸ hg)

/-! ### Writes -/

theorem accounts_settle (hg : w.graph.WellFormed) (v : Variable) (b : Bool) :
    Accounts (settle v b) w := by
  unfold settle
  refine accounts_get_bind (fun _ _ => rfl) ?_
  extract_lets reconcileThen modifyThen checkThen readThen
  have hreconcile : ∀ w', w'.graph = w.graph → Accounts (reconcileThen ()) w' := by
    intro w' hw
    show Accounts (if _ then _ else _) w'
    split
    · exact accounts_reconcileFuture (hw ▸ hg) v
    · exact accounts_pure () w'
  have hmodify : ∀ w', w'.graph = w.graph → Accounts (modifyThen ()) w' := by
    intro w' hw
    refine accounts_bind (accounts_modifyCurrent
      (Period.sameOverrides_modified w.graph _ v.name b)) ?_
    rintro _ w'' ⟨⟩
    refine accounts_when (fun _ => accounts_modifyCurrent
      (Period.sameOverrides_observed _ v.name b)) ?_
    rintro w'' (rfl | ⟨r, ⟨⟩⟩)
    · exact hreconcile _ hw
    · exact hreconcile _ hw
  have hcheck : ∀ prior w', w'.graph = w.graph → Accounts (checkThen prior) w' := by
    intro prior w' hw
    refine accounts_when (fun _ => accounts_throw _ w') ?_
    rintro w'' (rfl | ⟨r, ⟨⟩⟩)
    · exact hmodify _ hw
    · exact hmodify _ hw
  split
  · exact accounts_throw _ w
  · show Accounts (readThen ()) w
    dsimp only [readThen]
    split
    · refine accounts_bind (accounts_read v.symbol w) fun prior w' hrun => ?_
      exact hcheck prior w' (graph_eq_of_calm ((stays_read _ w).path hrun))
    · exact accounts_lift_bind fun prior _ => hcheck prior w rfl

theorem accounts_examine (hg : w.graph.WellFormed) (name : String) :
    Accounts (fireAll (w.graph.triggersDependentOn name) >>= reconcileFirings) w := by
  refine accounts_bind (accounts_fireAll _ w) fun fired w' hrun => ?_
  have hexamined := stays_fireAll (l := w.graph.triggersDependentOn name) hg
    fun t ht => mem_triggersDependentOn hg ht
  have hgraph := graph_eq_of_aftermath (hexamined.path hrun)
  exact accounts_reconcileFirings (hgraph ▸ hg) fired

theorem accounts_write (hg : w.graph.WellFormed) (s : Symbol) (b : Bool) :
    Accounts (write s b) w := by
  cases hr : w.graph.require s with
  | error e =>
    refine (accounts_throw e w).congr ?_
    intro travels reconciliations
    exact write_run_foreign (w := w.relogged travels reconciliations) hr b
  | ok v =>
    have hrun : ∀ travels reconciliations, (write s b).run (w.relogged travels reconciliations) =
        (settle v b >>= fun _ => fireAll (w.graph.triggersDependentOn v.name) >>=
          reconcileFirings).run (w.relogged travels reconciliations) :=
      fun travels reconciliations =>
        write_run_of_require (w := w.relogged travels reconciliations) hr b
    refine Accounts.congr (accounts_bind (accounts_settle hg v b) fun _ w' hsettle => ?_) hrun
    have hsettled := (stays_settle hg (Graph.require_eq_ok hr).1 b).path hsettle
    have hgraph := graph_eq_of_calm hsettled
    rw [← hgraph] at hg ⊢
    exact accounts_examine hg v.name

/-! ### Journeys -/

theorem announced_unless_arrived {r : TravelReport} (h : r.overrides = .empty) (time : Int)
    (name : String) : (Report.travel r).announced time name = [] := by
  rw [Report.announced, h, Table.get?_empty, Option.toList_none, ite_self]

/-- **An arrival reports what it fixes.** -/
theorem accounted_arrived {time : Int} {o : Valuation} (h : (w.timeline.period time).Accepts o) :
    Accounted w [.travel ⟨w.now, time, .arrived, false, [], o⟩] (w.arrived time o) where
  overrides := by
    intro other name
    show ((w.setPeriod _).override other name).toList = _
    rw [override_overridden h, List.flatMap_singleton, Report.announced]
  carriedOut := by
    intro r hr _ _ _
    rw [List.mem_singleton.mp hr]
    exact ⟨rfl, rfl⟩

theorem accounts_reportTravel {r : TravelReport} (h : r.overrides = .empty) (w : World) :
    Accounts (reportTravel r) w :=
  accounts_of_run (.ok r.succeeded) w (l := [.travel r]) (fun _ _ => rfl)
    (accounted_silent (fun _ _ => rfl) (announced_unless_arrived h))

theorem accounts_moveTo (time : Int) (w : World) : Accounts (moveTo time) w := by
  refine accounts_modify (fun _ _ => rfl) ?_
  intro other name
  show (((w.moved time).timeline.period other).record name).startOverride = _
  rw [period_moved, override]

/-- **A journey reports what it fixes.** -/
theorem accounts_travel (hg : w.graph.WellFormed) (time : Int) (dryRun : Bool) :
    Accounts (travel time dryRun) w := by
  unfold travel
  refine accounts_get_bind (fun _ _ => rfl) ?_
  extract_lets report g destination left started
  split
  · exact accounts_reportTravel rfl w
  · split
    · refine accounts_when (fun _ => accounts_moveTo time w) fun w' _ => ?_
      exact accounts_reportTravel rfl w'
    · split
      · exact accounts_reportTravel rfl w
      next merged _ =>
        refine accounts_lift_bind fun found hfind => ?_
        cases found with
        | none => exact accounts_reportTravel rfl w
        | some arrival =>
          dsimp only
          split
          · exact accounts_reportTravel rfl w
          next hdry =>
            -- The report comes last, but nothing can come between.
            have haccepts : (w.timeline.period time).Accepts arrival.overrides :=
              (Arrival.fits_of_find hfind).accepts hg
            obtain rfl : dryRun = false := by simpa using hdry
            refine accounts_of_run (.ok true) _ ?_ (accounted_arrived haccepts)
            intro travels reconciliations
            exact run_bind_ok (arriveAt_run (w := w.relogged travels reconciliations) haccepts)

theorem accounts_perform (hg : w.graph.WellFormed) (c : Call) : Accounts (perform c) w := by
  cases c with
  | peek s =>
    exact accounts_get_bind (fun _ _ => rfl)
      (accounts_lift_bind fun b _ => accounts_pure (some b) w)
  | read s => exact accounts_bind (accounts_read s w) fun b w' _ => accounts_pure (some b) w'
  | write s b => exact accounts_bind (accounts_write hg s b) fun _ w' _ => accounts_pure none w'
  | travel time =>
    exact accounts_bind (accounts_travel hg time false) fun b w' _ => accounts_pure (some b) w'
  | canTravel time =>
    exact accounts_bind (accounts_travel hg time true) fun b w' _ => accounts_pure (some b) w'
  | assign field d =>
    refine accounts_bind (accounts_modify (fun _ _ => rfl) fun _ _ => rfl) ?_
    exact fun _ w' _ => accounts_pure none w'

/-- **What a history fixes, its reports announce**, whatever the logs hold. -/
theorem accounted_after (hg : w.graph.WellFormed) (calls : List Call) :
    ∃ l, (∀ travels reconciliations, (w.relogged travels reconciliations).after calls =
        ((w.after calls).relogged travels reconciliations).received l) ∧
      Accounted w l (w.after calls) := by
  induction calls generalizing w with
  | nil => exact ⟨[], fun _ _ => rfl, accounted_nil fun _ _ => rfl⟩
  | cons c rest ih =>
    obtain ⟨l, hrun, haccounted⟩ := accounts_perform hg c
    obtain ⟨l', hrest, haccounted'⟩ := ih (w := w.next c) (graph_next hg c ▸ hg)
    refine ⟨l ++ l', ?_, haccounted.trans haccounted'⟩
    intro travels reconciliations
    have hnext : (w.relogged travels reconciliations).next c =
        ((w.next c).relogged travels reconciliations).received l :=
      congrArg Prod.snd (hrun travels reconciliations)
    show ((w.relogged travels reconciliations).next c).after rest = _
    rw [hnext, received_append]
    exact hrest _ _

/-! ### Logs that have room -/

/-- The world with more room in its logs. -/
def enlarged (w : World) (n : Nat) : World :=
  w.relogged ⟨w.travelLog.capacity + n, w.travelLog.entries⟩
    ⟨w.reconciliationLog.capacity + n, w.reconciliationLog.entries⟩

/-- Larger logs would hold the same reports of the history: none of them has been dropped. -/
def KeepsAll (w : World) (calls : List Call) : Prop :=
  ∀ n, ((w.enlarged n).after calls).reports = (w.after calls).reports

/-- The world comes from a fresh one by a history of which no report has been dropped. -/
def Documented (g : Graph) (w : World) : Prop :=
  ∃ settings time? calls, (start g settings time?).KeepsAll calls ∧
    w = (start g settings time?).after calls

theorem reports_received {travels : Log TravelReport} {reconciliations : Log ReconciliationReport}
    (hnone : travels.entries = []) (hnone' : reconciliations.entries = [])
    (hroom : (l.filterMap Report.travel?).length ≤ travels.capacity)
    (hroom' : (l.filterMap Report.reconciliation?).length ≤ reconciliations.capacity) :
    ((w.relogged travels reconciliations).received l).reports = Report.sorted l := by
  have hkept := Log.eq_entries_of_foldl_push rfl hnone hroom
  have hkept' := Log.eq_entries_of_foldl_push rfl hnone' hroom'
  exact (congrArg₂ (fun ts rs => List.map Report.travel ts ++ List.map Report.reconciliation rs)
    hkept hkept').symm

theorem received_after_start (g : Graph) (hg : g.WellFormed) (settings : Settings)
    (time? : Option Int) (calls : List Call) :
    ∃ l, Accounted (start g settings time?) l ((start g settings time?).after calls) ∧
      ∀ n, ((start g settings time?).enlarged n).after calls =
        (((start g settings time?).after calls).relogged
          (.empty (settings.maxLogEntries + n))
          (.empty (settings.maxLogEntries + n))).received l := by
  obtain ⟨l, hrun, haccounted⟩ := accounted_after (w := start g settings time?) hg calls
  exact ⟨l, haccounted, fun n => hrun _ _⟩

theorem keepsAll_of_size_lt (hg : g.WellFormed) {settings : Settings} {time? : Option Int}
    {calls : List Call}
    (htravels : ((start g settings time?).after calls).travelLog.size < settings.maxLogEntries)
    (hreconciliations :
      ((start g settings time?).after calls).reconciliationLog.size < settings.maxLogEntries) :
    (start g settings time?).KeepsAll calls := by
  obtain ⟨l, _, hrun⟩ := received_after_start g hg settings time? calls
  have hzero : (start g settings time?).after calls = _ := hrun 0
  rw [hzero] at htravels hreconciliations
  have hroom : (l.filterMap Report.travel?).length ≤ settings.maxLogEntries :=
    Log.length_le_of_size_lt htravels
  have hroom' : (l.filterMap Report.reconciliation?).length ≤ settings.maxLogEntries :=
    Log.length_le_of_size_lt hreconciliations
  intro n
  rw [hrun, hzero, reports_received rfl rfl, reports_received rfl rfl]
  · exact hroom
  · exact hroom'
  · exact Nat.le_add_right_of_le hroom
  · exact Nat.le_add_right_of_le hroom'

/-- **What is still in the logs accounts for every start that was fixed.** -/
theorem Documented.ledger (hg : g.WellFormed) (h : Documented g w) :
    (∀ time name, (w.reports.flatMap (Report.announced time name)).Perm
      (w.override time name).toList) ∧
      ∀ r ∈ w.reports, ∀ time name, r.announced time name ≠ [] → r.IsCarriedOut := by
  obtain ⟨settings, time?, calls, hkeeps, rfl⟩ := h
  obtain ⟨l, haccounted, hrun⟩ := received_after_start g hg settings time? calls
  have hreports : ((start g settings time?).after calls).reports.Perm l := by
    rw [← hkeeps l.length, hrun, reports_received rfl rfl]
    · exact Report.perm_sorted l
    · exact Nat.le_add_left_of_le (List.length_filterMap_le _ _)
    · exact Nat.le_add_left_of_le (List.length_filterMap_le _ _)
  refine ⟨?_, fun r hr => haccounted.carriedOut r (hreports.mem_iff.mp hr)⟩
  intro time name
  have hblank : (start g settings time?).override time name = none := by
    rw [override, period_start]
    rfl
  rw [haccounted.overrides, hblank, Option.toList_none, List.nil_append]
  exact hreports.flatMap_right _

/-- **The ledger and the reports agree.**  In a history of which no report has been dropped, the
start of a variable is fixed to a value in a period if and only if there is one report that
announces this, and no other report announces any value for it; and whatever a report announces has
been carried out, and is how the start is fixed. -/
theorem ledger_and_reports_agree (hg : g.IsValid) (hw : Documented g w) (time : Int)
    (name : String) :
    (∀ b, w.override time name = some b ↔
      ∃ before r after, w.reports = before ++ r :: after ∧ r.IsCarriedOut ∧
        b ∈ r.announced time name ∧ ∀ other ∈ before ++ after, other.announced time name = []) ∧
    ∀ r ∈ w.reports, ∀ b ∈ r.announced time name,
      r.IsCarriedOut ∧ w.override time name = some b := by
  obtain ⟨hledger, hcarried⟩ := hw.ledger hg.wellFormed
  have hfixed : ∀ r ∈ w.reports, ∀ b ∈ r.announced time name,
      r.IsCarriedOut ∧ w.override time name = some b := by
    intro r hr b hb
    refine ⟨hcarried r hr time name (List.ne_nil_of_mem hb), ?_⟩
    have hmem := (hledger time name).mem_iff.mp (List.mem_flatMap.mpr ⟨r, hr, hb⟩)
    exact Option.mem_toList.mp hmem
  refine ⟨?_, hfixed⟩
  intro b
  refine ⟨?_, ?_⟩
  · intro h
    have hall := hledger time name
    rw [h, Option.toList_some, List.perm_singleton] at hall
    obtain ⟨before, r, after, hreports, hr, hothers⟩ := Report.exists_of_flatMap_eq_singleton hall
    have hb : b ∈ r.announced time name := hr ▸ List.mem_singleton_self b
    exact ⟨before, r, after, hreports, (hfixed r (hreports ▸ List.mem_append_cons_self) b hb).1, hb,
      hothers⟩
  · rintro ⟨before, r, after, hreports, _, hb, _⟩
    exact (hfixed r (hreports ▸ List.mem_append_cons_self) b hb).2

/-- The glow was seen today and tomorrow.  One tick before, the key is turned: the lamp is lit to
explain the darkness, and on arrival the key is found turned. -/
def keyTurned : World :=
  (start Graph.cellar .standard none).after [.read Graph.Cellar.glow.symbol, .travel 1,
    .read Graph.Cellar.glow.symbol, .travel (-1), .write Graph.Cellar.key.symbol true, .travel 0]

theorem keyTurned_documented : Documented Graph.cellar keyTurned :=
  ⟨.standard, none, _, keepsAll_of_size_lt Graph.cellar_isValid.wellFormed (by decide +kernel)
    (by decide +kernel), rfl⟩

/-- The reconciliation has told of the lamp, and the arrival of the key. -/
theorem ledger_and_reports_agree_keyTurned :
    keyTurned.override 0 "lamp" = some true ∧ keyTurned.override 0 "key" = some true ∧
      (∃ before r after, keyTurned.reports = before ++ r :: after ∧ r.IsCarriedOut ∧
        true ∈ r.announced 0 "lamp" ∧
          ∀ other ∈ before ++ after, other.announced 0 "lamp" = []) ∧
      ∃ before r after, keyTurned.reports = before ++ r :: after ∧ r.IsCarriedOut ∧
        true ∈ r.announced 0 "key" ∧ ∀ other ∈ before ++ after, other.announced 0 "key" = [] := by
  have hlamp : keyTurned.override 0 "lamp" = some true := by decide +kernel
  have hkey : keyTurned.override 0 "key" = some true := by decide +kernel
  obtain ⟨hagree, _⟩ := ledger_and_reports_agree Graph.cellar_isValid keyTurned_documented 0 "lamp"
  obtain ⟨hagree', _⟩ := ledger_and_reports_agree Graph.cellar_isValid keyTurned_documented 0 "key"
  exact ⟨hlamp, hkey, (hagree true).mp hlamp, (hagree' true).mp hkey⟩

end World

end Chronicle
