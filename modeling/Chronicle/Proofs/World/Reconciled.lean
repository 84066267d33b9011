import Chronicle.Proofs.Period.Reconcilable
import Chronicle.Proofs.World.Return

/-!
# When a reconciliation keeps periods readable

What is known of a period may have no completion after a reconciliation, though it had one before
(`cellar_unreadable`): the corrections are fixed in the present also where they do not fit what
stays behind there, such as a transient latch that was seen silent.

Where the present and the later periods are reconcilable, every period stays readable: one
reconciliation keeps all periods readable and leaves those to come reconcilable (`Poised.step`), so
the loop does (`Poised.run`).  Without latches all periods are reconcilable
(`untriggered_reconciliation_keeps_readable`).

The worlds are those of a history, also in the middle of a call (`Attained`): a write reconciles the
world in which it has written (`Attained.wrote`), and latches that fire the one that comes of that
(`Attained.aftermath`).
-/

namespace Chronicle

namespace World

open Relation (ReflTransGen)

variable {g : Graph} {w w' : World} {P : Period → Prop} {cause v : Variable} {prior : Bool}
  {time : Int} {times : List Int} {r : ReconciliationReport}

/-- The world is met, perhaps in the middle of a call. -/
def Attained (g : Graph) (w : World) : Prop := ∃ w₀, Reachable g w₀ ∧ Evolves w₀ w

theorem Attained.graph_eq (hg : g.WellFormed) (h : Attained g w) : w.graph = g := by
  obtain ⟨w₀, hw, hpath⟩ := h
  exact (graph_eq_of_evolves hpath).trans (hw.graph_eq hg)

theorem Reachable.attained (h : Reachable g w) : Attained g w := ⟨w, h, ReflTransGen.refl⟩

theorem Attained.aftermath (h : Attained g w) (hpath : ReflTransGen Aftermath w w') :
    Attained g w' := by
  obtain ⟨w₀, hw, hbefore⟩ := h
  exact ⟨w₀, hw, hbefore.trans (evolves_of_aftermath hpath)⟩

theorem evolves_looked (hg : w.graph.WellFormed) (hv : v ∈ w.graph.declared)
    (hp : w.peek v.symbol = .ok prior) : Evolves w (w.looked v prior) := by
  obtain ⟨u, hu, he, hknown⟩ := peek_eq_ok hp
  obtain rfl := hg.eq_of_name hu hv (congrArg Symbol.name he)
  unfold looked
  split
  · exact ReflTransGen.single (.observed u prior hu hknown)
  · exact ReflTransGen.refl

theorem evolves_wrote (hg : w.graph.WellFormed) (hv : v ∈ w.graph.declared)
    (hm : v.isMutable = true) (b : Bool) : Evolves w (w.wrote v b) := by
  have hmodified : Evolves w (w.setPeriod (w.current.modified w.graph v.name b)) :=
    ReflTransGen.single (.modified v b hv hm)
  unfold wrote Period.written
  split
  · have htime : (w.current.modified w.graph v.name b).time = w.now :=
      (Period.time_modified _ _ _).trans (time_current w)
    have hcurrent := current_setPeriod htime
    have hobserved : Change (w.setPeriod (w.current.modified w.graph v.name b))
        ((w.setPeriod (w.current.modified w.graph v.name b)).setPeriod
          ((w.setPeriod (w.current.modified w.graph v.name b)).current.observed v.name b)) := by
      refine .observed v b hv ?_
      intro c hc
      rw [hcurrent, Period.peek_modified_self hg hv (Variable.isDerived_of_isMutable hm)] at hc
      exact (Option.some.inj hc).symm
    have hput := setPeriod_setPeriod w (p := w.current.modified w.graph v.name b)
      (q := (w.current.modified w.graph v.name b).observed v.name b) rfl
    rw [hcurrent, hput] at hobserved
    exact hmodified.tail hobserved
  · exact hmodified

/-- **The world that a write reconciles** is met within its call. -/
theorem Attained.wrote (hg : g.WellFormed) (hw : Attained g w) (hv : v ∈ g.declared)
    (hm : v.isMutable = true) (hp : w.peek v.symbol = .ok prior) (b : Bool) :
    Attained g ((w.looked v prior).wrote v b) := by
  obtain rfl := hw.graph_eq hg
  obtain ⟨w₀, hreachable, hbefore⟩ := hw
  have hgraph := (looked_eq w v prior).1
  refine ⟨w₀, hreachable, (hbefore.trans (evolves_looked hg hv hp)).trans ?_⟩
  exact evolves_wrote (hgraph ▸ hg) (hgraph ▸ hv) hm b

theorem Attained.forall_period (hg : g.WellFormed) (hP : Period.Kept g P) (h : Attained g w)
    (time : Int) : P (w.timeline.period time) := by
  obtain ⟨w₀, hw, hpath⟩ := h
  have hgraph := hw.graph_eq hg
  exact forall_period_of_path (hgraph ▸ hP) (path_of_evolves hpath) (hw.forall_period hg hP) time

/-! ### Reconciliations end -/

/-- **The loop never fails**, for no reconciliation does. -/
theorem Attained.exists_reconcileWithAll (hg : g.IsValid) (hl : g.IsLocal) (hw : Attained g w)
    (cause : Variable) (hlater : ∀ time ∈ times, w.now < time) :
    ∃ w', (reconcileWithAll cause times).run w = (.ok (), w') := by
  induction times generalizing w with
  | nil => exact ⟨w, rfl⟩
  | cons time rest ih =>
    have hwell := hg.wellFormed
    have hgraph := hw.graph_eq hwell
    have hfirings := hw.forall_period hwell (Period.kept_firingsDeclared g) time
    obtain ⟨r, hr⟩ := exists_reconciliation (hgraph ▸ hwell) (hgraph ▸ hl) cause (hgraph ▸ hfirings)
    have hrun := reconcileWith_run (hgraph ▸ hwell) cause time
    rw [hr] at hrun
    have hnext := hw.aftermath ((stays_reconcileWith (hgraph ▸ hwell) cause
      (hlater time List.mem_cons_self)).aftermath.path hrun)
    have hnow : ((w.reconciled r).reported r).now = w.now := (reconciled_eq w r).2.1
    obtain ⟨w', hrest⟩ := ih hnext fun other ho =>
      hnow ▸ hlater other (List.mem_cons_of_mem time ho)
    exact ⟨w', (reconcileWithAll_run_cons (hgraph ▸ hwell) hr rest).trans hrest⟩

theorem Attained.exists_reconcileFuture (hg : g.IsValid) (hl : g.IsLocal) (hw : Attained g w)
    (cause : Variable) : ∃ w', (reconcileFuture cause).run w = (.ok (), w') := by
  refine hw.exists_reconcileWithAll hg hl cause ?_
  intro time ht
  simpa using (List.mem_filter.mp ht).2

theorem Attained.exists_reconcileFirings (hg : g.IsValid) (hl : g.IsLocal) (hw : Attained g w)
    (fired : List Variable) : ∃ w', (reconcileFirings fired).run w = (.ok (), w') := by
  induction fired generalizing w with
  | nil => exact ⟨w, rfl⟩
  | cons t rest ih =>
    unfold reconcileFirings
    rw [run_get_bind]
    split
    · obtain ⟨w', hrun⟩ := hw.exists_reconcileFuture hg hl t
      have hwell : w.graph.WellFormed := hw.graph_eq hg.wellFormed ▸ hg.wellFormed
      have hnext := hw.aftermath ((stays_reconcileFuture hwell t).aftermath.path hrun)
      rw [run_bind_ok hrun]
      exact ih hnext
    · exact ih hw

/-! ### Periods stay readable -/

/-- All periods are readable, and stay so when the present is reconciled with these times. -/
structure Poised (g : Graph) (w : World) (times : List Int) : Prop where
  graph_eq : w.graph = g
  aligned : ∀ time, (w.timeline.period time).Aligned g
  firings : ∀ time, (w.timeline.period time).FiringsDeclared g
  readable : ∀ time, (w.timeline.period time).Readable g
  later : ∀ time ∈ times, w.now < time
  reconcilable : ∀ time ∈ times, w.current.Reconcilable g (w.timeline.period time)

theorem exists_corrected (hg : w.graph.WellFormed) (h : w.reconciliation cause time = .ok r)
    (hs : r.success = true) (hne : time ≠ w.now) (other : Int) :
    ∃ o, (w.timeline.period other).Corrected w.graph
      ((w.reconciled r).timeline.period other) o := by
  obtain ⟨hsource, htarget⟩ := corrected_of_reconciliation hg h hs hne
  obtain ⟨_, _, rfl, _⟩ := reconciliation_eq_ok h
  by_cases hnow : other = w.now
  · subst hnow
    refine ⟨r.sourceOverrides, ?_⟩
    have hcurrent : (w.reconciled r).timeline.period w.now = (w.reconciled r).current := by
      rw [current, (reconciled_eq w r).2.1]
    rw [hcurrent]
    exact hsource
  · by_cases hother : other = r.target
    · subst hother
      exact ⟨r.targetOverrides, htarget⟩
    · rw [period_reconciled_of_ne hnow hother]
      exact ⟨.empty, Period.corrected_empty _⟩

/-- **A success keeps all periods readable**: the present and the target by their corrections, and
the others are not touched. -/
theorem Poised.readable_reconciled (hv : g.IsValid) (hl : g.IsLocal)
    (h : Poised g w (time :: times)) (hr : w.reconciliation cause time = .ok r)
    (hs : r.success = true) (t : Int) : ((w.reconciled r).timeline.period t).Readable g := by
  have hwell := hv.wellFormed
  obtain rfl := h.graph_eq
  have hne : time ≠ w.now := (Int.ne_of_lt (h.later time List.mem_cons_self)).symm
  obtain ⟨hsource, htarget⟩ := corrected_of_reconciliation hwell hr hs hne
  obtain ⟨_, _, rfl, hsuccess⟩ := reconciliation_eq_ok hr
  obtain ⟨merged, arrival, hm, hf, hso, hto⟩ := hsuccess hs
  have hfits := Arrival.fits_of_find hf
  have hrec := h.reconcilable r.target List.mem_cons_self
  have hmodel : ∀ t, ∃ M, w.graph.IsModel .latched
      ((w.timeline.period t).currentState w.graph) M :=
    fun t => (Period.readable_iff hwell hl).mp (h.readable t)
  by_cases ht : t = w.now
  · have hcurrent : (w.reconciled r).timeline.period t = (w.reconciled r).current := by
      rw [current, (reconciled_eq w r).2.1, ht]
    rw [hcurrent, Period.readable_iff hwell hl]
    exact Period.exists_model_source hwell hl hv hm hfits hrec (h.aligned w.now) (hmodel w.now)
      (hso ▸ hsource)
  · by_cases ht' : t = r.target
    · rw [ht', Period.readable_iff hwell hl]
      exact Period.exists_model_target hwell hl hv hm hfits hrec (h.aligned r.target)
        (hmodel r.target) (hto ▸ htarget)
    · rw [period_reconciled_of_ne ht ht']
      exact h.readable t

/-- **One reconciliation keeps all periods readable**, and those to come harmless. -/
theorem Poised.step (hv : g.IsValid) (hl : g.IsLocal) (h : Poised g w (time :: times))
    (hr : w.reconciliation cause time = .ok r) :
    Poised g ((w.reconciled r).reported r) times := by
  have hwell := hv.wellFormed
  cases hs : r.success with
  | false =>
    rw [reconciled_of_failure hs]
    exact ⟨h.graph_eq, h.aligned, h.firings, h.readable,
      fun t ht => h.later t (List.mem_cons_of_mem _ ht),
      fun t ht => h.reconcilable t (List.mem_cons_of_mem _ ht)⟩
  | true =>
    have hread := h.readable_reconciled hv hl hr hs
    obtain rfl := h.graph_eq
    obtain ⟨hgraph, hnow, _⟩ := reconciled_eq w r
    have hne : time ≠ w.now := (Int.ne_of_lt (h.later time List.mem_cons_self)).symm
    have hcorrected := exists_corrected hwell hr hs hne
    obtain ⟨hsource, _⟩ := corrected_of_reconciliation hwell hr hs hne
    refine ⟨hgraph, ?_, ?_, hread, ?_, ?_⟩
    · intro t
      obtain ⟨o, ho⟩ := hcorrected t
      exact ho.aligned (h.aligned t)
    · intro t
      obtain ⟨o, ho⟩ := hcorrected t
      intro d hd
      exact h.firings t d (ho.antecedents ▸ hd)
    · intro t ht
      show (w.reconciled r).now < t
      rw [hnow]
      exact h.later t (List.mem_cons_of_mem _ ht)
    · intro t ht
      obtain ⟨o, ho⟩ := hcorrected t
      exact (h.reconcilable t (List.mem_cons_of_mem _ ht)).corrected hwell (h.aligned w.now)
        (h.aligned t) hsource ho

theorem Poised.run (hv : g.IsValid) (hl : g.IsLocal) (h : Poised g w times) (cause : Variable) :
    ∃ w', (reconcileWithAll cause times).run w = (.ok (), w') ∧
      ∀ time, (w'.timeline.period time).Readable g := by
  induction times generalizing w with
  | nil => exact ⟨w, rfl, h.readable⟩
  | cons time rest ih =>
    have hwell : w.graph.WellFormed := h.graph_eq ▸ hv.wellFormed
    have hfirings : (w.timeline.period time).FiringsDeclared w.graph :=
      h.graph_eq ▸ h.firings time
    obtain ⟨r, hr⟩ := exists_reconciliation hwell (h.graph_eq ▸ hl) cause hfirings
    obtain ⟨w', hrun, hread⟩ := ih (h.step hv hl hr)
    exact ⟨w', (reconcileWithAll_run_cons hwell hr rest).trans hrun, hread⟩

theorem Attained.poised (hg : g.IsValid) (hl : g.IsLocal) (hw : Attained g w)
    (hread : ∀ time ∈ w.timeline.times, (w.timeline.period time).Readable g)
    (hrec : ∀ time ∈ w.timeline.times, w.now < time →
      w.current.Reconcilable g (w.timeline.period time)) :
    Poised g w (w.timeline.times.filter fun time => w.now < time) := by
  have hwell := hg.wellFormed
  have hlater : ∀ time ∈ w.timeline.times.filter (fun time => w.now < time),
      time ∈ w.timeline.times ∧ w.now < time := by
    intro time ht
    simpa using List.mem_filter.mp ht
  refine ⟨hw.graph_eq hwell, hw.forall_period hwell (Period.kept_aligned hwell),
    hw.forall_period hwell (Period.kept_firingsDeclared g), ?_, ?_, ?_⟩
  · intro time
    by_cases ht : time ∈ w.timeline.times
    · exact hread time ht
    · have hblank : w.timeline.at? time = none := by
        rw [Timeline.at?, List.find?_eq_none]
        intro p hp he
        exact ht (List.mem_map.mpr ⟨p, hp, by simpa using he⟩)
      rw [period_of_unvisited hblank]
      exact Period.readable_blank hwell hl hg time
  · intro time ht
    exact (hlater time ht).2
  · intro time ht
    exact hrec time (hlater time ht).1 (hlater time ht).2

/-- **A reconciliation keeps every period readable** that it can be done with.  In any world of a
history, also in the middle of a call: if what is known in every visited period has a consistent
completion, and the present is reconcilable with every later one, then the reconciliation with them
ends without an error, and what is known in every visited period still has a completion. -/
theorem reconciliation_keeps_readable (hg : g.IsValid) (hl : g.IsLocal) (hw : Attained g w)
    (cause : Variable)
    (hread : ∀ time ∈ w.timeline.times, (w.timeline.period time).Readable g)
    (hrec : ∀ time ∈ w.timeline.times, w.now < time →
      w.current.Reconcilable g (w.timeline.period time)) :
    ∃ w', (reconcileFuture cause).run w = (.ok (), w') ∧
      ∀ time ∈ w'.timeline.times, (w'.timeline.period time).Readable g := by
  obtain ⟨w', hrun, hall⟩ := (hw.poised hg hl hread hrec).run hg hl cause
  exact ⟨w', hrun, fun time _ => hall time⟩

/-- **Without latches every reconciliation keeps every period readable.** -/
theorem untriggered_reconciliation_keeps_readable (hg : g.IsValid) (hl : g.IsLocal)
    (hu : g.Untriggered) (hw : Attained g w) (cause : Variable)
    (hread : ∀ time ∈ w.timeline.times, (w.timeline.period time).Readable g) :
    ∃ w', (reconcileFuture cause).run w = (.ok (), w') ∧
      ∀ time ∈ w'.timeline.times, (w'.timeline.period time).Readable g := by
  have hfirings := hw.forall_period hg.wellFormed (Period.kept_firingsDeclared g)
  have hrec : ∀ time ∈ w.timeline.times, w.now < time →
      w.current.Reconcilable g (w.timeline.period time) :=
    fun time _ _ => Period.reconcilable_of_untriggered hu (hfirings time)
  obtain ⟨w', hrun, hall⟩ := (hw.poised hg hl hread hrec).run hg hl cause
  exact ⟨w', hrun, fun time _ => hall time⟩

end World

/-! ### A lamp in the cellar -/

namespace Graph

namespace Cellar

/-- Turns once. -/
def key : Variable := ⟨⟨"key", 0⟩, .mutable false false, [], []⟩

def lamp : Variable := ⟨⟨"lamp", 1⟩, .mutable false true, [], []⟩

/-- Goes off when the lamp is lit, and is not heard afterwards. -/
def alarm : Variable :=
  ⟨⟨"alarm", 2⟩, .triggered (Formula.value "lamp").rule false, [lamp.symbol], [lamp.symbol]⟩

def glows : Formula := .differ (.value "key") (.value "lamp")

def glow : Variable :=
  ⟨⟨"glow", 3⟩, .derived glows.rule, [key.symbol, lamp.symbol], [key.symbol, lamp.symbol]⟩

def entries : List Entry :=
  [⟨"key", .mutable "key" false false, []⟩, ⟨"lamp", .mutable "lamp" false true, []⟩,
    ⟨"alarm", .triggered "alarm" [.label "lamp"] (Formula.value "lamp").rule false, []⟩,
    ⟨"glow", .derived "glow" [.label "key", .label "lamp"] glows.rule, []⟩]

end Cellar

open Cellar in
def cellar : Graph := ⟨[key, lamp, alarm, glow], [], [alarm, glow]⟩

theorem cellar_isValid : cellar.IsValid :=
  isValid_of_made cellar Cellar.entries rfl (fun _ hv => hv) (fun _ hd => nomatch hd) rfl

theorem cellar_isLocal : cellar.IsLocal := by
  apply isLocal_of_reads
  intro v hv rule hr
  simp only [cellar, List.mem_cons, List.not_mem_nil, or_false] at hv
  rcases hv with rfl | rfl | rfl | rfl
  · cases hr
  · cases hr
  · cases hr
    exact ⟨.value "lamp", rfl, by decide⟩
  · cases hr
    exact ⟨Cellar.glows, rfl, by decide⟩

end Graph

namespace World

/-- It is dark in the cellar; one tick before, somebody is about to turn the key. -/
def darkSeen : World :=
  (start Graph.cellar .standard none).after [.read Graph.Cellar.glow.symbol, .travel (-1)]

/-- The key has been turned, and the darkness is not yet explained. -/
theorem reconciliation_keeps_readable_darkSeen :
    ∃ w', (reconcileFuture Graph.Cellar.key).run
        ((darkSeen.looked Graph.Cellar.key false).wrote Graph.Cellar.key true) = (.ok (), w') ∧
      ∀ time ∈ w'.timeline.times, (w'.timeline.period time).Readable Graph.cellar := by
  have hreachable : Reachable Graph.cellar darkSeen := ⟨.standard, none, _, rfl⟩
  have hprior : darkSeen.peek Graph.Cellar.key.symbol = .ok false := by decide +kernel
  have hattained := hreachable.attained.wrote Graph.cellar_isValid.wellFormed
    (by simp [Graph.cellar]) rfl hprior true
  exact reconciliation_keeps_readable Graph.cellar_isValid Graph.cellar_isLocal hattained
    Graph.Cellar.key (by decide +kernel) (by decide +kernel)

/-- The same, but the alarm was heard first, and it was silent. -/
def alarmHeard : World := darkSeen.next (.read Graph.Cellar.alarm.symbol)

/-- A reconciliation can leave the present unreadable: to explain the darkness it lights the lamp in
it, where the alarm is known to be silent. -/
theorem cellar_unreadable :
    ¬ ∀ (g : Graph) (w : World) (v : Variable) (prior b : Bool), g.IsValid → g.IsLocal →
      Reachable g w → v ∈ g.declared → v.isReversible = false → w.peek v.symbol = .ok prior →
      forbids v prior b = false →
      (∀ time ∈ ((w.looked v prior).wrote v b).timeline.times,
        (((w.looked v prior).wrote v b).timeline.period time).Readable g) →
      ∀ time ∈ ((reconcileFuture v).run ((w.looked v prior).wrote v b)).2.timeline.times,
        (((reconcileFuture v).run ((w.looked v prior).wrote v b)).2.timeline.period time).Readable
          g := by
  intro hall
  have hdark : Reachable Graph.cellar darkSeen := ⟨.standard, none, _, rfl⟩
  have hreachable : Reachable Graph.cellar alarmHeard := hdark.next _
  have hread := hall Graph.cellar alarmHeard Graph.Cellar.key false true Graph.cellar_isValid
    Graph.cellar_isLocal hreachable (by simp [Graph.cellar]) rfl (by decide +kernel) rfl
    (by decide +kernel) (-1) (by decide +kernel)
  have hunreadable : ¬ (((reconcileFuture Graph.Cellar.key).run ((alarmHeard.looked
      Graph.Cellar.key false).wrote Graph.Cellar.key true)).2.timeline.period (-1)).Readable
        Graph.cellar := by decide +kernel
  exact hunreadable hread

end World

end Chronicle
