import Chronicle.Proofs.Arrival.Again
import Chronicle.Proofs.World.Permanent
import Chronicle.Proofs.World.Reconciled

/-!
# When a reported success can be relied on

A write of an irreversible mutable reconciles the present with one later period after another, and
looks at none of them again.  What is fixed in the present for a later one may contradict one that
was reported before (`lampDark_unreliable`).

A success can be relied on if the reports after it fix in the present only what its target is known
to start with (`StartsAs`), and if no firing there can take a mutable from its default unseen
(`Displays`): then the history that was found is found again (`reported_success_holds`).  What
leaves the present in the end is what it knew when the report was made and what has been fixed
since, for nothing that is known there is stale (`Noted.outgoing_of_carries`).
-/

namespace Chronicle

namespace Period

variable {g : Graph} {p q : Period} {v : Variable} {reports : List ReconciliationReport}

/-- What the reports say was fixed in the present is how the period is known to start. -/
def StartsAs (p : Period) (reports : List ReconciliationReport) : Prop :=
  ∀ r ∈ reports, ∀ name b, r.sourceOverrides.get? name = some b →
    (p.record name).knownStart = some b

/-- Every firing of the later period `q` shows the mutables that are known at their defaults, by the
period `p` or at the start of `q`. -/
def Displays (g : Graph) (p q : Period) : Prop :=
  ∀ d ∈ q.antecedentList, ∀ m ∈ g.declared, m.isMutable = true →
    p.peek m.name = some m.default ∨ (q.record m.name).knownStart = some m.default →
    Arrival.Shows g d m.name

instance decidableDisplays (g : Graph) (p q : Period) : Decidable (Displays g p q) :=
  inferInstanceAs (Decidable (∀ d ∈ q.antecedentList, ∀ m ∈ g.declared, m.isMutable = true →
    p.peek m.name = some m.default ∨ (q.record m.name).knownStart = some m.default →
    Arrival.Shows g d m.name))

theorem Noted.outgoing_of_carries (h : p.Noted g) (hf : p.Fresh g) (hs : p.Settled g)
    (hv : v ∈ g.declared) (hc : g.carries v = true) :
    (p.record v.name).outgoing = p.peek v.name := by
  refine Record.outgoing_eq_peek ?_
  cases hm : v.isMutable with
  | true => exact h.fresh v hv hm
  | false =>
    cases hd : v.isDerived with
    | true => exact hs v hv hd
    | false =>
      refine hf v hv (Graph.isPersistent_of_carries hc ?_)
      cases hk : v.kind with
      | «mutable» => simp [Variable.isMutable, hk] at hm
      | derived => simp [Variable.isDerived, hk] at hd
      | triggered => simp [Variable.isTriggered, hk]

end Period

namespace Arrival

variable {g : Graph} {p p' q q' : Period} {merged : Valuation} {a : Arrival} {v : Variable}

section

variable (hv : g.IsValid)
  (hm : g.merge (p.carriedState g) (q.startState g) = some merged) (ha : a.Fits g merged q)

include hv hm ha

/-- **What the present knows after a correction** and may leave it: what it knew, and all that was
corrected, for that was open. -/
theorem Fits.get?_carriedState_corrected (hp : p.Aligned g)
    (hc : p.Corrected g p' ((a.corrections merged).filter p.canOverride)) (hmem : v ∈ g.declared) :
    (p'.carriedState g).get? v.name =
      ((p.carriedState g).get? v.name).or ((a.corrections merged).get? v.name) := by
  have hg := hv.wellFormed
  have hk := Period.isKnowledge_carriedState hg p
  have hknown := Period.get?_carriedState (p := p) hg hmem
  rw [Period.get?_carriedState hg hmem, hc.peek_eq hg hp hmem, Table.get?_filter]
  cases hcorrection : (a.corrections merged).get? v.name with
  | none => rw [ite_self, Option.or_none, Option.or_none, hknown]
  | some b =>
    obtain ⟨m, hm', he, hmut, _⟩ := (ha.corrections_eq_some hg hcorrection).2.2
    obtain rfl := hg.eq_of_name hm' hmem he
    have hnone := (ha.corrections_unknown hg hm hk hmem hcorrection).1
    rw [hknown, if_pos (hv.carries_mutable hmem hmut)] at hnone
    have hopen := hp.canOverride_of_unknown hmem (Variable.isDerived_of_isMutable hmut) hnone
    rw [hknown, if_pos (hv.carries_mutable hmem hmut), if_pos (hv.carries_mutable hmem hmut),
      if_pos hopen]

theorem Fits.shows_of_displays {p'' : Period}
    (hc : q.Corrected g q' (startOverrides g q (a.corrections merged)))
    (hpeek : ∀ m ∈ g.declared, ∀ b, p.peek m.name = some b → p''.peek m.name = some b)
    (hd : p''.Displays g q') :
    ∀ d ∈ q.antecedentList, ∀ m ∈ g.declared, m.isMutable = true →
      merged.get? m.name = some m.default → Shows g d m.name := by
  have hg := hv.wellFormed
  intro d hmem m hmem' hmut hdefault
  refine hd d (hc.antecedents ▸ hmem) m hmem' hmut ?_
  rcases Graph.get?_merge_cases hm hdefault with hhere | hthere
  · left
    rw [Period.get?_carriedState hg hmem', if_pos (hv.carries_mutable hmem' hmut)] at hhere
    exact hpeek m hmem' _ hhere
  · right
    rw [Period.get?_startState hg.nodup hmem'] at hthere
    have hknown : merged.contains m.name = true := Table.contains_iff.mpr ⟨_, hdefault⟩
    rw [ha.knownStart_corrected hg hc hmem', get?_corrections, if_pos hknown, ite_self,
      Option.none_or, hthere]

end

end Arrival

namespace World

open Relation (ReflTransGen)

variable {g : Graph} {w w' : World} {cause v : Variable} {b : Bool} {times : List Int}
  {r : ReconciliationReport} {rs before after : List ReconciliationReport}
  {l fired : List Variable}

/-! ### A write that fires no latch -/

/-- **When latches are examined** and nothing changes then none has fired. -/
theorem fireAll_run_cases (hg : w.graph.WellFormed)
    (hl : ∀ t ∈ l, t ∈ w.graph.declared ∧ t.isTriggered = true)
    (h : (fireAll l).run w = (.ok fired, w')) :
    (fired = [] ∧ w' = w) ∨ ∃ t ∈ w.graph.declared, t.isTriggered = true ∧
      w.current.peek t.name ≠ some true ∧ w'.current.peek t.name = some true := by
  induction l generalizing w fired with
  | nil =>
    cases h
    exact Or.inl ⟨rfl, rfl⟩
  | cons t rest ih =>
    obtain ⟨ht, hk⟩ := hl t List.mem_cons_self
    obtain ⟨one, w₁, hfire, htail⟩ := run_bind_eq_ok.mp h
    obtain ⟨others, w₂, hrest, hend⟩ := run_bind_eq_ok.mp htail
    rcases fire_run_cases t w with ⟨res, hres, hrun⟩ | ⟨hp, hrun⟩
    · rw [hfire] at hrun
      obtain ⟨rfl, rfl⟩ := Prod.mk.inj hrun
      cases one with
      | true => exact absurd rfl hres
      | false =>
        cases hend
        exact ih hg (fun u hu => hl u (List.mem_cons_of_mem t hu)) hrest
    · rw [hfire] at hrun
      obtain ⟨hone, rfl⟩ := Prod.mk.inj hrun
      cases hone
      cases hend
      refine Or.inr ⟨t, ht, hk, hp, ?_⟩
      have hself : (w.setPeriod (w.current.fired w.graph t)).current.peek t.name = some true := by
        rw [current_fired]
        exact Period.peek_fired_self hg ht hk
      have hstays := stays_fireAll (w := w.setPeriod (w.current.fired w.graph t)) hg
        (fun u hu => hl u (List.mem_cons_of_mem t hu))
      exact peek_latch_of_evolves (w := w.setPeriod (w.current.fired w.graph t)) hg
        (evolves_of_aftermath (hstays.path hrest)) ht hk hself

theorem reconcileFuture_run_of_silent (hg : w.graph.WellFormed) (hr : v.isReversible = false)
    (hs : w.settings.reconcileWrites = true) (h : (followUp v).run w = (.ok (), w'))
    (hsilent : ∀ t ∈ w.graph.declared, t.isTriggered = true →
      w'.current.peek t.name = some true → w.current.peek t.name = some true) :
    (reconcileFuture v).run w = (.ok (), w') := by
  unfold followUp at h
  rw [run_get_bind, hr, hs] at h
  obtain ⟨⟨⟩, w₁, hfuture, htail⟩ := run_bind_eq_ok.mp h
  obtain ⟨fired, w₂, hfire, hend⟩ := run_bind_eq_ok.mp htail
  have hbefore := (stays_reconcileFuture hg v).aftermath.evolves.path hfuture
  have hgraph := graph_eq_of_evolves hbefore
  have hlatches : ∀ t ∈ w.graph.triggersDependentOn v.name,
      t ∈ w₁.graph.declared ∧ t.isTriggered = true := by
    rw [hgraph]
    exact fun t ht => mem_triggersDependentOn hg ht
  rcases fireAll_run_cases (hgraph ▸ hg) hlatches hfire with
    ⟨rfl, rfl⟩ | ⟨t, ht, hk, hp, hp'⟩
  · cases hend
    exact hfuture
  · -- What has fired is still known to have, and it had not fired before.
    exfalso
    have hexamined := (stays_fireAll (hgraph ▸ hg) hlatches).path hfire
    have hgraph' := graph_eq_of_aftermath hexamined
    have hwell : w₂.graph.WellFormed := by rwa [hgraph', hgraph]
    have hafter := (stays_reconcileFirings hwell fired).aftermath.evolves.path hend
    have hfired := peek_latch_of_evolves hwell hafter (hgraph' ▸ ht) hk hp'
    rw [hgraph] at ht
    exact hp (peek_latch_of_evolves hg hbefore ht hk (hsilent t ht hk hfired))

/-! ### After the loop -/

namespace Reconciles

theorem peek_current (hg : w.graph.WellFormed) (h : Reconciles cause w times rs w')
    (hlater : ∀ time ∈ times, w.now < time) {name : String}
    (hp : w.current.peek name = some b) : w'.current.peek name = some b := by
  rcases h.record_current hg hlater name with hsame | ⟨_, _, _, _, ho, _⟩
  · rw [Period.peek, hsame]
    exact hp
  · rw [Period.peek_of_canOverride ho] at hp
    cases hp

/-- **What leaves the present after the loop** is what was known there, or what some report says was
fixed. -/
theorem get?_leaving_cases (hg : w.graph.WellFormed) (h : Reconciles cause w times rs w')
    (hlater : ∀ time ∈ times, w.now < time) (haligned : w.current.Aligned w.graph)
    (hnoted : w'.current.Noted w.graph) (hfresh : w'.current.Fresh w.graph)
    (hsettled : w'.current.Settled w.graph) (hv : v ∈ w.graph.declared) :
    w'.leaving.get? v.name = (w.current.carriedState w.graph).get? v.name ∨
      (w.current.canOverride v.name = true ∧ ∃ r ∈ rs, ∃ b,
        r.sourceOverrides.get? v.name = some b ∧ w'.leaving.get? v.name = some b) := by
  have hleaving : w'.leaving.get? v.name =
      if w.graph.carries v then (w'.current.record v.name).outgoing else none := by
    rw [leaving, h.graph_eq, Period.get?_endState hg hv]
  rw [hleaving, Period.get?_carriedState hg hv]
  cases hc : w.graph.carries v with
  | false => exact Or.inl rfl
  | true =>
    rcases h.record_current hg hlater v.name with
      hsame | ⟨r, hr, b, hb, ho, ⟨m, hm, he, hmut⟩, hrecord⟩
    · left
      rw [if_pos rfl, if_pos rfl, hnoted.outgoing_of_carries hfresh hsettled hv hc, Period.peek,
        hsame, Period.peek]
    · right
      obtain rfl := hg.eq_of_name hm hv he
      have hf := haligned.unmodified_of_canOverride hv (Variable.isDerived_of_isMutable hmut) ho
      have hcurrent : (w.current.record m.name).currentValue = none :=
        (Period.canOverride_iff.mp ho).2
      refine ⟨ho, r, hr, b, hb, ?_⟩
      rw [if_pos rfl, hrecord, Record.outgoing, hcurrent, hf]
      rfl

/-- **What leaves the present after a success** and the rounds that follow: what was known and
corrected, or where nothing was, what some later report says was fixed. -/
theorem get?_leaving_of_success {merged : Valuation} {a : Arrival} (hg : w.graph.IsValid)
    (hw : Attained w.graph w)
    (hm : w.graph.merge (w.current.carriedState w.graph)
      ((w.timeline.period r.target).startState w.graph) = some merged)
    (ha : a.Fits w.graph merged (w.timeline.period r.target))
    (hsource : w.current.Corrected w.graph (w.reconciled r).current
      ((a.corrections merged).filter w.current.canOverride))
    (h : Reconciles cause ((w.reconciled r).reported r) times after w')
    (hlater : ∀ time ∈ times, ((w.reconciled r).reported r).now < time)
    (hw' : Attained w.graph w') (hnoted : w'.current.Noted w.graph) (hv : v ∈ w.graph.declared) :
    w'.leaving.get? v.name = ((w.current.carriedState w.graph).get? v.name).or
        ((a.corrections merged).get? v.name) ∨
      ((w.current.carriedState w.graph).get? v.name = none ∧
        (a.corrections merged).get? v.name = none ∧ ∃ r' ∈ after, ∃ b,
          r'.sourceOverrides.get? v.name = some b ∧ w'.leaving.get? v.name = some b) := by
  have hwell := hg.wellFormed
  have hgraph : ((w.reconciled r).reported r).graph = w.graph := (reconciled_eq w r).1
  have haligned := hw.forall_period hwell (Period.kept_aligned hwell) w.now
  have hfresh := hw'.forall_period hwell (Period.kept_fresh hwell) w'.now
  have hsettled := hw'.forall_period hwell (Period.kept_settled hwell) w'.now
  have hcarried := ha.get?_carriedState_corrected hg hm haligned hsource hv
  rw [← hcarried]
  rcases h.get?_leaving_cases (hgraph ▸ hwell) hlater (hgraph ▸ hsource.aligned haligned)
    (hgraph ▸ hnoted) (hgraph ▸ hfresh) (hgraph ▸ hsettled) (hgraph ▸ hv) with
    hleaves | ⟨ho, r', hr', b, hb, hleaves⟩
  · left
    rw [hleaves, hgraph]
    rfl
  · right
    have hopen : (w.reconciled r).current.peek v.name = none := Period.peek_of_canOverride ho
    have hnone : ((w.reconciled r).current.carriedState w.graph).get? v.name = none := by
      rw [Period.get?_carriedState hwell hv, hopen, ite_self]
    rw [hcarried, Option.or_eq_none_iff] at hnone
    exact ⟨hnone.1, hnone.2, r', hr', b, hb, hleaves⟩

/-- **The round of a report** starts from a world in the middle of the call, and no later round
touches its target. -/
theorem exists_round (hg : g.WellFormed) (hw : Attained g w) (h : Reconciles cause w times rs w')
    (hlater : ∀ time ∈ times, w.now < time) (hnodup : times.Nodup)
    (hrs : rs = before ++ r :: after) :
    ∃ w₁ later, Attained g w₁ ∧ w₁.now < r.target ∧ w₁.reconciliation cause r.target = .ok r ∧
      Reconciles cause ((w₁.reconciled r).reported r) later after w' ∧
      (∀ time ∈ later, ((w₁.reconciled r).reported r).now < time) ∧
      w'.timeline.period r.target = (w₁.reconciled r).timeline.period r.target := by
  obtain ⟨earlier, later, w₁, rfl, hbefore, hat, hafter⟩ := h.split hrs
  have hreached : Attained g w₁ := hw.aftermath (hbefore.aftermath (hw.graph_eq hg ▸ hg)
    fun time ht => hlater time (List.mem_append_left _ ht))
  have hlt : w₁.now < r.target := by
    rw [hbefore.now_eq]
    exact hlater r.target (by simp)
  have hnow : ((w₁.reconciled r).reported r).now = w₁.now := (reconciled_eq w₁ r).2.1
  have hrest : r.target ∉ later := by
    have hsplit := List.nodup_append.mp hnodup
    exact (List.nodup_cons.mp hsplit.2.1).1
  refine ⟨w₁, later, hreached, hlt, hat, hafter, ?_, hafter.period_of_notMem (by omega) hrest⟩
  intro time ht
  rw [hnow, hbefore.now_eq]
  exact hlater time (by simp [ht])

/-- **A success holds after the loop**, if its target starts as the later reports say and its
firings display what is known. -/
theorem exists_find (hg : g.IsValid) (hl : g.IsLocal) (hw : Attained g w)
    (h : Reconciles cause w times rs w') (hlater : ∀ time ∈ times, w.now < time)
    (hnodup : times.Nodup) (hnoted : w'.current.Noted g) (hrs : rs = before ++ r :: after)
    (hs : r.success = true) (hstarts : (w'.timeline.period r.target).StartsAs after)
    (hdisplays : w'.current.Displays g (w'.timeline.period r.target)) :
    ∃ merged arrival, g.merge w'.leaving (w'.started r.target) = some merged ∧
      Arrival.find g merged (w'.timeline.period r.target) = .ok (some arrival) := by
  have hwell := hg.wellFormed
  have hattained := hw.aftermath (h.aftermath (hw.graph_eq hwell ▸ hwell) hlater)
  obtain ⟨w₁, later, hreached, hlt, hat, hafter, hlast, hkept⟩ :=
    h.exists_round hwell hw hlater hnodup hrs
  obtain rfl := hreached.graph_eq hwell
  obtain ⟨hsource, htarget⟩ := corrected_of_reconciliation hwell hat hs (by omega)
  obtain ⟨_, _, _, hsuccess⟩ := reconciliation_eq_ok hat
  obtain ⟨merged, arrival, hm, hf, hso, hto⟩ := hsuccess hs
  rw [← hkept, hto] at htarget
  rw [hso] at hsource
  have hfits := Arrival.fits_of_find hf
  have hgraph : ((w₁.reconciled r).reported r).graph = w₁.graph := (reconciled_eq w₁ r).1
  have hgraph' : w'.graph = w₁.graph := hafter.graph_eq.trans hgraph
  have haligned := hreached.forall_period hwell (Period.kept_aligned hwell)
  have hpeek : ∀ m ∈ w₁.graph.declared, ∀ b, w₁.current.peek m.name = some b →
      w'.current.peek m.name = some b := by
    intro m hmem b hb
    refine hafter.peek_current (hgraph ▸ hwell) hlast ?_
    show (w₁.reconciled r).current.peek m.name = some b
    rw [hsource.peek_eq hwell (haligned w₁.now) hmem, hb, Option.some_or]
  have hshow := hfits.shows_of_displays hg hm htarget hpeek hdisplays
  have hleaves : ∀ v ∈ w₁.graph.declared,
      w'.leaving.get? v.name = ((w₁.current.carriedState w₁.graph).get? v.name).or
          ((arrival.corrections merged).get? v.name) ∨
        ((w₁.current.carriedState w₁.graph).get? v.name = none ∧
          (arrival.corrections merged).get? v.name = none ∧
          w'.leaving.get? v.name =
            ((w'.timeline.period r.target).record v.name).knownStart) := by
    intro v hv
    rcases hafter.get?_leaving_of_success hg hreached hm hfits hsource hlast hattained hnoted hv
      with hsame | ⟨hnone, hnone', r', hr', b, hb, hfixed⟩
    · exact Or.inl hsame
    · exact Or.inr ⟨hnone, hnone', hfixed.trans (hstarts r' hr' v.name b hb).symm⟩
  have hk : w₁.graph.IsKnowledge w'.leaving := by
    rw [leaving, hgraph']
    exact Period.isKnowledge_endState hwell _
  rw [started, hgraph']
  exact hfits.exists_find_again hwell hm (Period.isKnowledge_carriedState hwell w₁.current) hk
    hleaves htarget hshow hl (haligned r.target)
    (hreached.forall_period hwell (Period.kept_firingsDeclared w₁.graph) r.target)
    (hreached.forall_period hwell (Period.kept_recordsDeclared hwell) r.target)

end Reconciles

/-- **A write of an irreversible mutable that fires no latch** is written, and then the present is
reconciled with every later period. -/
theorem exists_reconciles_of_write (hg : w.graph.WellFormed)
    (ho : w.settings.observeOnWrite = true) (hs : w.settings.reconcileWrites = true)
    (hv : v ∈ w.graph.declared) (hr : v.isReversible = false)
    (h : w.answer (.write v.symbol b) = .ok none)
    (hsilent : ∀ t ∈ w.graph.declared, t.isTriggered = true →
      (w.next (.write v.symbol b)).current.peek t.name = some true →
      w.current.peek t.name = some true) :
    ∃ prior reports, w.peek v.symbol = .ok prior ∧
      Reconciles v ((w.looked v prior).wrote v b)
        (w.timeline.times.filter fun time => w.now < time) reports
        (w.next (.write v.symbol b)) := by
  have hm := Variable.isMutable_of_irreversible hr
  obtain ⟨prior, hp, hfree, hfollow⟩ := followUp_run_of_answer hg hv hm h
  obtain ⟨hgraph, hsettings, hnow⟩ := looked_eq w v prior
  have hpresent : ((w.looked v prior).wrote v b).now = w.now := hnow
  have htimes : ((w.looked v prior).wrote v b).timeline.times.filter (fun time => w.now < time) =
      w.timeline.times.filter fun time => w.now < time := by
    have htime : ((w.current.observed v.name prior).written w.graph true v b).time = w.now :=
      (Period.time_written _ _ _ _).trans (time_current w)
    rw [wrote_looked ho, ← htime]
    exact Timeline.later_times_put w.timeline _
  have hlatches : ∀ t ∈ w.graph.declared, t.isTriggered = true →
      (w.next (.write v.symbol b)).current.peek t.name = some true →
      ((w.looked v prior).wrote v b).current.peek t.name = some true := by
    intro t ht hk hfired
    have hwrote := evolves_wrote (w := w.looked v prior) (hgraph ▸ hg) (hgraph ▸ hv) hm b
    exact peek_latch_of_evolves hg ((evolves_looked hg hv hp).trans hwrote) ht hk
      (hsilent t ht hk hfired)
  have hfuture := reconcileFuture_run_of_silent (hgraph ▸ hg) hr (hsettings ▸ hs) hfollow
    (hgraph ▸ hlatches)
  obtain ⟨reports, hloop⟩ := reconciles_of_run (hgraph ▸ hg) hfuture
  rw [hpresent, htimes] at hloop
  exact ⟨prior, reports, hp, hloop⟩

/-- **A reported success can be relied on** if nothing that was fixed later speaks against it.  In a
world in which every write was seen, let an irreversible mutable be written without firing a latch.
Then every later period has its report, in order; and whenever one reports a success, a journey to
its target would succeed after the write, if the target is known to start as the reports after it
have fixed the present, and if every firing there shows the mutables that are known at their
defaults. -/
theorem reported_success_holds (hg : g.IsValid) (hl : g.IsLocal) (hw : Watched g w)
    (ho : w.settings.observeOnWrite = true) (hs : w.settings.reconcileWrites = true)
    (hv : v ∈ g.declared) (hr : v.isReversible = false)
    (h : w.answer (.write v.symbol b) = .ok none)
    (hsilent : ∀ t ∈ g.declared, t.isTriggered = true →
      (w.next (.write v.symbol b)).current.peek t.name = some true →
      w.current.peek t.name = some true) :
    ∃ reports, (w.next (.write v.symbol b)).reconciliationLog =
        reports.foldl Log.push w.reconciliationLog ∧
      reports.map ReconciliationReport.target =
        w.timeline.times.filter (fun time => w.now < time) ∧
      ∀ before r after, reports = before ++ r :: after → r.success = true →
        ((w.next (.write v.symbol b)).timeline.period r.target).StartsAs after →
        (w.next (.write v.symbol b)).current.Displays g
          ((w.next (.write v.symbol b)).timeline.period r.target) →
        (w.next (.write v.symbol b)).answer (.canTravel r.target) = .ok (some true) := by
  have hwell := hg.wellFormed
  obtain rfl := hw.reachable.graph_eq hwell
  obtain ⟨prior, reports, hp, hloop⟩ := exists_reconciles_of_write hwell ho hs hv hr h hsilent
  have hpresent : ((w.looked v prior).wrote v b).now = w.now := (looked_eq w v prior).2.2
  have hattained :=
    hw.reachable.attained.wrote hwell hv (Variable.isMutable_of_irreversible hr) hp b
  have hnoted := (hw.next ho (.write v.symbol b)).noted hwell
  have hlater : ∀ time ∈ w.timeline.times.filter (fun time => w.now < time), w.now < time := by
    intro time ht
    simpa using (List.mem_filter.mp ht).2
  have hnodup : (w.timeline.times.filter (fun time => w.now < time)).Nodup :=
    (hw.reachable.ascending hwell).nodup.filter _
  have hlog := reconciliationLog_wrote w v prior b
  refine ⟨reports, hlog ▸ hloop.log_eq, hloop.targets_eq, ?_⟩
  intro before r after hreports hsuccess hstarts hdisplays
  obtain ⟨merged, arrival, hmerge, hfind⟩ := hloop.exists_find hg hl hattained (hpresent ▸ hlater)
    hnodup (hnoted _) hreports hsuccess hstarts hdisplays
  have hsame := graph_next hwell (.write v.symbol b)
  have hlt : (w.next (.write v.symbol b)).now < r.target := by
    rw [hloop.now_eq, hpresent]
    refine hlater r.target ?_
    rw [← hloop.targets_eq, hreports]
    simp
  exact (answer_canTravel (travel_run_found hlt (hsame ▸ hmerge) (hsame ▸ hfind))).1

/-! ### Dark today and tomorrow -/

/-- It is dark in the cellar on two ticks; one tick before, somebody is about to turn the key. -/
def darkTwice : World :=
  (start Graph.cellar .standard none).after [.read Graph.Cellar.glow.symbol, .travel 1,
    .read Graph.Cellar.glow.symbol, .travel (-1)]

theorem darkTwice_watched : Watched Graph.cellar darkTwice :=
  ⟨.standard, none, _, by decide +kernel, rfl⟩

/-- The lamp is lit to explain the darkness, and that explains it on both ticks. -/
theorem reported_success_holds_darkTwice :
    (darkTwice.next (.write Graph.Cellar.key.symbol true)).answer (.canTravel 0) =
      .ok (some true) := by
  obtain ⟨reports, hlog, htargets, hall⟩ := reported_success_holds (v := Graph.Cellar.key)
    (b := true) Graph.cellar_isValid Graph.cellar_isLocal darkTwice_watched (by decide +kernel)
    (by decide +kernel) (by simp [Graph.cellar]) rfl (by decide +kernel) (by decide +kernel)
  have htimes : darkTwice.timeline.times.filter (fun time => darkTwice.now < time) = [0, 1] := by
    decide +kernel
  rw [htimes] at htargets
  have hcapacity : darkTwice.reconciliationLog.capacity = 1000 := by decide +kernel
  have hlength := congrArg List.length htargets
  rw [List.length_map] at hlength
  have hreports := Log.eq_entries_of_foldl_push hlog (by decide +kernel)
    (by rw [hcapacity, hlength]; decide)
  have hseen : reports.map (fun r => (r.target, r.success, r.sourceOverrides.entries)) =
      [(0, true, [("lamp", true)]), (1, true, [])] := by
    rw [hreports]
    decide +kernel
  obtain ⟨r, _, rfl, hr, hrest⟩ := List.map_eq_cons_iff.mp hseen
  obtain ⟨r', _, rfl, hr', hnil⟩ := List.map_eq_cons_iff.mp hrest
  obtain rfl := List.map_eq_nil_iff.mp hnil
  obtain ⟨htarget, hsuccess, _⟩ : r.target = 0 ∧ r.success = true ∧ _ := by simpa using hr
  obtain ⟨_, _, hempty⟩ : r'.target = 1 ∧ r'.success = true ∧ r'.sourceOverrides.entries = [] := by
    simpa using hr'
  have hanswer := hall [] r [r'] rfl hsuccess
  rw [htarget] at hanswer
  refine hanswer ?_ (by decide +kernel)
  intro r'' hr'' name b hb
  obtain rfl := List.mem_singleton.mp hr''
  have hmem := Table.mem_entries_iff.mpr hb
  rw [hempty] at hmem
  cases hmem

/-- The lamp was seen dark today, and the glow tomorrow; one tick before, somebody is about to turn
the key. -/
def lampDark : World :=
  (start Graph.cellar .standard none).after [.read Graph.Cellar.lamp.symbol, .travel 1,
    .read Graph.Cellar.glow.symbol, .travel (-1)]

theorem lampDark_watched : Watched Graph.cellar lampDark :=
  ⟨.standard, none, _, by decide +kernel, rfl⟩

/-- A reported success can be undone by the next reconciliation: to explain the dark glow of
tomorrow it lights the lamp, which was seen dark today. -/
theorem lampDark_unreliable :
    ¬ ∀ (g : Graph) (w : World) (v : Variable) (b : Bool), g.IsValid → g.IsLocal → Watched g w →
      w.settings = .standard → v ∈ g.declared → v.isReversible = false →
      w.answer (.write v.symbol b) = .ok none →
      (∀ t ∈ g.declared, t.isTriggered = true →
        (w.next (.write v.symbol b)).current.peek t.name = some true →
        w.current.peek t.name = some true) →
      ∃ reports : List ReconciliationReport, (w.next (.write v.symbol b)).reconciliationLog =
          reports.foldl Log.push w.reconciliationLog ∧
        reports.map ReconciliationReport.target =
          w.timeline.times.filter (fun time => w.now < time) ∧
        ∀ r ∈ reports, r.success = true →
          (w.next (.write v.symbol b)).answer (.canTravel r.target) = .ok (some true) := by
  intro hall
  obtain ⟨reports, hlog, htargets, hholds⟩ := hall Graph.cellar lampDark Graph.Cellar.key true
    Graph.cellar_isValid Graph.cellar_isLocal lampDark_watched (by decide +kernel)
    (by simp [Graph.cellar]) rfl (by decide +kernel) (by decide +kernel)
  have htimes : lampDark.timeline.times.filter (fun time => lampDark.now < time) = [0, 1] := by
    decide +kernel
  have hcapacity : lampDark.reconciliationLog.capacity = 1000 := by decide +kernel
  have hlength := congrArg List.length (htargets.trans htimes)
  rw [List.length_map] at hlength
  have hreports := Log.eq_entries_of_foldl_push hlog (by decide +kernel)
    (by rw [hcapacity, hlength]; decide)
  rw [hreports] at hholds
  have hbroken : ∃ r ∈ (lampDark.next (.write Graph.Cellar.key.symbol true)
      ).reconciliationLog.entries, r.success = true ∧
        (lampDark.next (.write Graph.Cellar.key.symbol true)).answer (.canTravel r.target) =
          .ok (some false) := by decide +kernel
  obtain ⟨r, hr, hsuccess, hrefused⟩ := hbroken
  rw [hholds r hr hsuccess] at hrefused
  cases hrefused

end World

end Chronicle
