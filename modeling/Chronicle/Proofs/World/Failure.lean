import Chronicle.Proofs.World.Examine

/-!
# What a failed write leaves behind

A write that is refused, or that cannot look at what it replaces, keeps the ledger
(`KeepsLedger`): all that it can have done is to look.

But once it has written, a write is not taken back.  Latches are examined after it, and if what is
known without one of them has no completion, the write fails there, and what it has done until then
stays: its own value, what was reconciled with it and the latches that fired before
(`failed_write_keeps_or_stays`).  So it does on the clock, where a bit is written that takes the
dial beyond its end (`highSeen_corrupted`).  Even then it remains at its time and visits no other
(`Placed.stays_followUp`).
-/

namespace Chronicle

namespace World

open Relation (ReflTransGen)

variable {g : Graph} {w w' : World} {s : Symbol} {v t : Variable} {prior b : Bool} {e : Error}
  {times : List Int} {l : List Variable} {r : ReconciliationReport}

/-- The time, the periods visited and all their records and antecedents are the same, but a
variable may have been seen now. -/
structure KeepsLedger (w w' : World) (s : Symbol) : Prop where
  now_eq : w'.now = w.now
  times_eq : w'.timeline.times = w.timeline.times
  antecedents_eq : ∀ time,
    (w'.timeline.period time).antecedents = (w.timeline.period time).antecedents
  record_eq : ∀ time name, time ≠ w.now ∨ name ≠ s.name →
    (w'.timeline.period time).record name = (w.timeline.period time).record name
  seen : w'.current.record s.name = w.current.record s.name ∨
    ∃ prior, w.peek s = .ok prior ∧
      w'.current.record s.name = (w.current.observed s.name prior).record s.name

theorem KeepsLedger.refl (w : World) (s : Symbol) : KeepsLedger w w s :=
  ⟨rfl, rfl, fun _ => rfl, fun _ _ _ => rfl, Or.inl rfl⟩

/-! ### The periods that are visited -/

/-- The world is at one of the times that have been visited, and these are in order. -/
structure Placed (w : World) : Prop where
  ascending : w.timeline.Ascending
  visited : w.now ∈ w.timeline.times

/-- It is the same time, and the same have been visited. -/
structure Remains (w w' : World) : Prop where
  graph_eq : w'.graph = w.graph
  now_eq : w'.now = w.now
  times_eq : w'.timeline.times = w.timeline.times

theorem Remains.refl (w : World) : Remains w w := ⟨rfl, rfl, rfl⟩

theorem Remains.trans {w'' : World} (h : Remains w w') (h' : Remains w' w'') : Remains w w'' :=
  ⟨h'.graph_eq.trans h.graph_eq, h'.now_eq.trans h.now_eq, h'.times_eq.trans h.times_eq⟩

theorem remains_of_steps (h : ReflTransGen Remains w w') : Remains w w' := by
  induction h with
  | refl => exact .refl w
  | tail _ hlast ih => exact ih.trans hlast

theorem Reachable.placed (hg : g.WellFormed) (h : Reachable g w) : w.Placed :=
  ⟨h.ascending hg, h.now_mem_times hg⟩

namespace Placed

theorem of_remains (hw : w.Placed) (h : Remains w w') : w'.Placed where
  ascending := by
    rw [Timeline.Ascending, h.times_eq]
    exact hw.ascending
  visited := by
    rw [h.now_eq, h.times_eq]
    exact hw.visited

theorem remains_setPeriod (hw : w.Placed) {p : Period} (hp : p.time ∈ w.timeline.times) :
    Remains w (w.setPeriod p) := ⟨rfl, rfl, hw.ascending.times_put hp⟩

theorem remains_setCurrent (hw : w.Placed) {p : Period} (hp : p.time = w.now) :
    Remains w (w.setPeriod p) := hw.remains_setPeriod (hp ▸ hw.visited)

theorem remains_looked (hw : w.Placed) (v : Variable) (prior : Bool) :
    Remains w (w.looked v prior) := by
  unfold looked
  split
  · exact hw.remains_setCurrent (time_current w)
  · exact .refl w

theorem remains_wrote (hw : w.Placed) (v : Variable) (b : Bool) : Remains w (w.wrote v b) :=
  hw.remains_setCurrent ((Period.time_written _ _ _ _).trans (time_current w))

theorem remains_reconciled (hw : w.Placed) (ht : r.target ∈ w.timeline.times) :
    Remains w (w.reconciled r) := by
  unfold reconciled
  split
  · have hsource := hw.remains_setCurrent (p := w.current.overridden r.sourceOverrides.entries)
      ((Period.time_overridden _ _).trans (time_current w))
    refine hsource.trans ((hw.of_remains hsource).remains_setPeriod ?_)
    rw [Period.time_overridden, Timeline.time_period, hsource.times_eq]
    exact ht
  · exact .refl w

/-! What follows a write goes back to visited periods only, even if it fails. -/

theorem stays_reconcileWithAll (hg : w.graph.WellFormed) (hw : w.Placed) (cause : Variable)
    (ht : ∀ time ∈ times, time ∈ w.timeline.times) :
    Stays Remains (reconcileWithAll cause times) w := by
  induction times generalizing w with
  | nil => exact stays_pure () w
  | cons time rest ih =>
    have hfirst : Stays Remains (reconcileWith cause time) w := by
      unfold Stays
      rw [reconcileWith_run hg]
      cases hr : w.reconciliation cause time with
      | error e => exact ReflTransGen.refl
      | ok r =>
        obtain ⟨_, _, rfl, _⟩ := reconciliation_eq_ok hr
        have hreconciled := hw.remains_reconciled (ht r.target List.mem_cons_self)
        exact ReflTransGen.single (hreconciled.trans ⟨rfl, rfl, rfl⟩)
    refine stays_bind hfirst fun _ w' _ hsteps => ?_
    have hsame := remains_of_steps hsteps
    refine ih (hsame.graph_eq ▸ hg) (hw.of_remains hsame) fun other ho => ?_
    rw [hsame.times_eq]
    exact ht other (List.mem_cons_of_mem time ho)

theorem stays_reconcileFuture (hg : w.graph.WellFormed) (hw : w.Placed) (cause : Variable) :
    Stays Remains (reconcileFuture cause) w :=
  stays_get_bind (hw.stays_reconcileWithAll hg cause fun _ ht => List.mem_of_mem_filter ht)

theorem stays_reconcileFirings (hg : w.graph.WellFormed) (hw : w.Placed) (l : List Variable) :
    Stays Remains (reconcileFirings l) w := by
  induction l generalizing w with
  | nil => exact stays_pure () w
  | cons t rest ih =>
    unfold reconcileFirings
    apply stays_get_bind
    refine stays_when (fun _ => hw.stays_reconcileFuture hg t) fun w' hsteps => ?_
    have hsame := remains_of_steps hsteps
    exact ih (hsame.graph_eq ▸ hg) (hw.of_remains hsame)

theorem stays_fireAll (hw : w.Placed) (l : List Variable) : Stays Remains (fireAll l) w := by
  induction l generalizing w with
  | nil => exact stays_pure [] w
  | cons t rest ih =>
    have hfirst : Stays Remains (fire t) w := by
      unfold Stays
      rcases fire_run_cases t w with ⟨_, _, hrun⟩ | ⟨_, hrun⟩
      · rw [hrun]
      · rw [hrun]
        exact ReflTransGen.single
          (hw.remains_setCurrent ((Period.time_fired _ _).trans (time_current w)))
    refine stays_bind hfirst fun fired w' _ hsteps => ?_
    refine stays_bind (ih (hw.of_remains (remains_of_steps hsteps))) fun others w'' _ _ => ?_
    exact stays_pure _ w''

/-- **What follows a write visits no period.** -/
theorem stays_followUp (hg : w.graph.WellFormed) (hw : w.Placed) (v : Variable) :
    Stays Remains (followUp v) w := by
  unfold followUp
  apply stays_get_bind
  refine stays_when (fun _ => hw.stays_reconcileFuture hg v) fun w' hsteps => ?_
  have hsame := remains_of_steps hsteps
  have hw' := hw.of_remains hsame
  refine stays_bind (hw'.stays_fireAll _) fun fired w'' _ hsteps' => ?_
  have hsame' := remains_of_steps hsteps'
  exact (hw'.of_remains hsame').stays_reconcileFirings
    (hsame'.graph_eq ▸ hsame.graph_eq ▸ hg) fired

/-- **To look keeps the ledger.** -/
theorem keepsLedger_looked (hw : w.Placed) (hp : w.peek v.symbol = .ok prior) :
    KeepsLedger w (w.looked v prior) v.symbol := by
  have hremains := hw.remains_looked v prior
  unfold looked at hremains ⊢
  split
  next ho =>
    rw [if_pos ho] at hremains
    refine ⟨rfl, hremains.times_eq, antecedents_setPeriod (time_current w) rfl, ?_, ?_⟩
    · intro time name hother
      show ((w.timeline.put _).period time).record name = _
      rw [Timeline.period_put]
      split
      next he =>
        obtain rfl : w.now = time := (time_current w).symm.trans he
        have hne : v.name ≠ name := Ne.symm (hother.resolve_left (absurd rfl))
        rw [Period.record_observed, if_neg hne]
        rfl
      next => rfl
    · rw [current_observed]
      exact Or.inr ⟨prior, hp, rfl⟩
  next => exact .refl w _

end Placed

/-! ### Where a write fails -/

theorem peek_mutable_of_aftermath (hg : w.graph.WellFormed) (hv : v ∈ w.graph.declared)
    (hm : v.isMutable = true) (hb : w.current.peek v.name = some b)
    (h : ReflTransGen Aftermath w w') : w'.current.peek v.name = some b := by
  induction h with
  | refl => exact hb
  | @tail w₁ w₂ hbefore hlast ih =>
    have hgraph := graph_eq_of_aftermath hbefore
    rw [← hgraph] at hg hv
    cases hlast with
    | fired t ht hk _ =>
      have hne : v ≠ t := by
        rintro rfl
        rw [Variable.isMutable_of_isTriggered hk] at hm
        cases hm
      rw [current_fired, Period.peek,
        Period.record_fired_of_ne hg ht hv (Variable.isDerived_of_isMutable hm) hne]
      exact ih
    | overridden time o ho =>
      show ((w₁.timeline.put _).period w₁.now).peek v.name = _
      rw [Timeline.period_put, Period.time_overridden, Timeline.time_period]
      split
      next he =>
        subst he
        exact Period.peek_overridden ho ih
      next => exact ih
    | reported r => exact ih

theorem fireAll_run_error (h : (fireAll l).run w = (.error e, w')) :
    ∃ t ∈ l, (fire t).run w' = (.error e, w') := by
  induction l generalizing w with
  | nil => cases h
  | cons t rest ih =>
    have hrun : (fireAll (t :: rest)).run w = (fire t >>= fun fired => fireAll rest >>=
      fun others => pure (if fired then t :: others else others) : Action _).run w := rfl
    rw [hrun, run_bind] at h
    rcases hfire : (fire t).run w with ⟨e' | fired, w₁⟩
    · rw [hfire] at h
      cases h
      rcases fire_run_cases t w with ⟨_, _, hsame⟩ | ⟨_, hfired⟩
      · rw [hsame] at hfire
        cases hfire
        exact ⟨t, List.mem_cons_self, hsame⟩
      · rw [hfired] at hfire
        cases hfire
    · rw [hfire] at h
      dsimp only at h
      rw [run_bind] at h
      rcases hrest : (fireAll rest).run w₁ with ⟨e' | others, w₂⟩
      · rw [hrest] at h
        cases h
        obtain ⟨u, hu, hfail⟩ := ih hrest
        exact ⟨u, List.mem_cons_of_mem t hu, hfail⟩
      · rw [hrest] at h
        cases h

section

variable (hg : g.IsValid) (hl : g.IsLocal)

include hg hl

/-- **A latch cannot be examined** only because nothing completes what is known without it. -/
theorem fire_run_error (hgraph : w.graph = g) (ht : t ∈ g.declared) (hk : t.isTriggered = true)
    (h : (fire t).run w = (.error e, w')) :
    w.current.peek t.name ≠ some true ∧ ¬ g.Solvable .latched (w.knowledgeWithout t) ∧
      e = .noCompletion w.now (g.describe (w.knowledgeWithout t)) := by
  have hwell := hg.wellFormed
  subst hgraph
  have hsilent : w.current.peek t.name ≠ some true := by
    intro hp
    rw [fire_run_of_known hp] at h
    cases h
  have hknowledge : w.graph.IsKnowledge (w.knowledgeWithout t) := isKnowledge_without hwell _
  have hunsolvable : ¬ w.graph.Solvable .latched (w.knowledgeWithout t) := by
    intro hsolvable
    obtain ⟨N, hN⟩ := (Graph.solvable_iff hwell hl hknowledge).mp hsolvable
    obtain ⟨M, hsolve, hM⟩ := Graph.exists_solve hwell hl hknowledge hN
    obtain ⟨rule, persistent, hr⟩ := Variable.role_of_isTriggered hk
    obtain ⟨_, fires, _, hrule, _⟩ := hM.triggered t ht rule persistent hr
    have hcomputes : t.computes M = .ok fires := by
      rw [Variable.computes, Variable.rule?, hr]
      exact hrule
    rw [fire_run_of_solve hsilent hsolve hcomputes] at h
    cases fires <;> cases h
  refine ⟨hsilent, hunsolvable, ?_⟩
  unfold fire at h
  rw [run_get_bind, if_neg hsilent, resolve_of_unsolvable hwell hl hunsolvable] at h
  cases h
  rfl

/-- **A write that fails after it has written** fails in the examination of the latches: it is
always reconciled with later periods, and so is what fires. -/
theorem Attained.followUp_run_error (hw : Attained g w)
    (h : (followUp v).run w = (.error e, w')) :
    ∃ t ∈ g.triggersDependentOn v.name, w'.current.peek t.name ≠ some true ∧
      ¬ g.Solvable .latched (w'.knowledgeWithout t) ∧
      e = .noCompletion w'.now (g.describe (w'.knowledgeWithout t)) := by
  have hwell := hg.wellFormed
  obtain rfl := hw.graph_eq hwell
  have hexamine : ∃ w₁, Attained w.graph w₁ ∧
      (fireAll (w.graph.triggersDependentOn v.name) >>= reconcileFirings).run w₁ =
        (.error e, w') := by
    unfold followUp at h
    rw [run_get_bind] at h
    split at h
    · obtain ⟨w₁, hfuture⟩ := hw.exists_reconcileFuture hg hl v
      rw [run_bind_ok hfuture] at h
      exact ⟨w₁, hw.aftermath ((World.stays_reconcileFuture hwell v).aftermath.path hfuture), h⟩
    · exact ⟨w, hw, h⟩
  obtain ⟨w₁, hattained, h⟩ := hexamine
  have hgraph := hattained.graph_eq hwell
  have hlatches : ∀ t ∈ w.graph.triggersDependentOn v.name,
      t ∈ w.graph.declared ∧ t.isTriggered = true := fun t ht => mem_triggersDependentOn hwell ht
  have hstays : Stays Aftermath (fireAll (w.graph.triggersDependentOn v.name)) w₁ := by
    refine World.stays_fireAll (hgraph ▸ hwell) fun t ht => ?_
    rw [hgraph]
    exact hlatches t ht
  rcases hrun : (fireAll (w.graph.triggersDependentOn v.name)).run w₁ with ⟨e' | fired, w₂⟩
  · rw [run_bind, hrun] at h
    cases h
    obtain ⟨t, ht, hfail⟩ := fireAll_run_error hrun
    have hgraph' := (hattained.aftermath (hstays.path hrun)).graph_eq hwell
    obtain ⟨hdec, hk⟩ := hlatches t ht
    exact ⟨t, ht, fire_run_error hg hl hgraph' hdec hk hfail⟩
  · rw [run_bind_ok hrun] at h
    obtain ⟨w₃, hend⟩ :=
      (hattained.aftermath (hstays.path hrun)).exists_reconcileFirings hg hl fired
    rw [hend] at h
    cases h

end

/-- **A failed write keeps the ledger or stays.**  If it has not written, all that it can have done
is to look.  If it has, it remains at its time and visits no other, and the value that it has
written stays; where formulas are local, this comes of a latch that depends on the variable, is not
known to have fired, and cannot be examined, since nothing completes what is known without it. -/
theorem failed_write_keeps_or_stays (hg : g.IsValid) (hw : Reachable g w)
    (h : w.answer (.write s b) = .error e) :
    KeepsLedger w (w.next (.write s b)) s ∨
      ∃ v ∈ g.declared, v.symbol = s ∧ v.isMutable = true ∧
        (w.next (.write s b)).now = w.now ∧
        (w.next (.write s b)).timeline.times = w.timeline.times ∧
        (w.next (.write s b)).current.peek v.name = some b ∧
        (g.IsLocal → ∃ t ∈ g.triggersDependentOn v.name,
          (w.next (.write s b)).current.peek t.name ≠ some true ∧
          ¬ g.Solvable .latched ((w.next (.write s b)).knowledgeWithout t) ∧
          e = .noCompletion w.now (g.describe ((w.next (.write s b)).knowledgeWithout t))) := by
  have hwell := hg.wellFormed
  obtain rfl := hw.graph_eq hwell
  have hplaced := hw.placed hwell
  rcases next_write_cases hwell s b with
    hnext | ⟨v, hv, hm, rfl, prior, hp, ⟨_, hnext⟩ | ⟨hfree, hpath⟩⟩
  · rw [hnext]
    exact Or.inl (.refl w s)
  · rw [hnext]
    exact Or.inl (hplaced.keepsLedger_looked hp)
  · have hrun := write_run_of_peek hwell hv hm hp b
    rw [hfree, if_neg Bool.false_ne_true] at hrun
    have hgraph : ((w.looked v prior).wrote v b).graph = w.graph := (looked_eq w v prior).1
    have hlooked := hplaced.remains_looked v prior
    have hwrote := hlooked.trans ((hplaced.of_remains hlooked).remains_wrote v b)
    rcases hfollow : (followUp v).run ((w.looked v prior).wrote v b) with ⟨e' | ⟨⟩, w'⟩
    · obtain ⟨hanswer, hnext⟩ := answer_write (hrun.trans hfollow)
      obtain rfl : e' = e := Except.error.inj (hanswer.symm.trans h)
      rw [hnext] at hpath ⊢
      have hremains := hwrote.trans (remains_of_steps
        (((hplaced.of_remains hwrote).stays_followUp (hgraph ▸ hwell) v).path hfollow))
      refine Or.inr ⟨v, hv, rfl, hm, hremains.now_eq, hremains.times_eq, ?_, ?_⟩
      · refine peek_mutable_of_aftermath (hgraph ▸ hwell) (hgraph ▸ hv) hm ?_ hpath
        rw [← get?_knowledge (hgraph ▸ hwell) (hgraph ▸ hv)]
        exact get?_knowledge_wrote hwell hv hm prior b
      · intro hl
        rw [← hremains.now_eq]
        exact (hw.attained.wrote hwell hv hm hp b).followUp_run_error hg hl hfollow
    · rw [(answer_write (hrun.trans hfollow)).1] at h
      cases h

/-! ### A dial beyond its end -/

/-- The dial is at two, and its high bit has been seen. -/
def highSeen : World :=
  (start Graph.clock .standard none).after [.read Graph.Clock.high.symbol]

theorem highSeen_reachable : Reachable Graph.clock highSeen := ⟨.standard, none, _, rfl⟩

/-- To write its low bit as well would make three of it, which it does not have. -/
theorem highSeen_answer : highSeen.answer (.write Graph.Clock.low.symbol true) =
    .error (.noCompletion 0 "\x7bdial_bit0=True, dial_bit1=True\x7d") := by
  decide +kernel

theorem not_keepsLedger_highSeen :
    ¬ KeepsLedger highSeen (highSeen.next (.write Graph.Clock.low.symbol true))
      Graph.Clock.low.symbol := by
  intro h
  have hwritten : (highSeen.next (.write Graph.Clock.low.symbol true)).current.record
      Graph.Clock.low.symbol.name = ⟨true, false, some false, none, some true, some true⟩ := by
    decide +kernel
  have hprior : highSeen.peek Graph.Clock.low.symbol = .ok false := by decide +kernel
  rcases h.seen with hsame | ⟨prior, hp, hseen⟩
  · rw [hwritten] at hsame
    revert hsame
    decide +kernel
  · obtain rfl : false = prior := Except.ok.inj (hprior.symm.trans hp)
    rw [hwritten] at hseen
    revert hseen
    decide +kernel

/-- The alarm cannot be examined, and the bit stays written. -/
theorem failed_write_keeps_or_stays_highSeen :
    highSeen.answer (.write Graph.Clock.low.symbol true) =
        .error (.noCompletion 0 "\x7bdial_bit0=True, dial_bit1=True\x7d") ∧
      (highSeen.next (.write Graph.Clock.low.symbol true)).current.peek "dial_bit0" = some true ∧
      ∃ t ∈ Graph.clock.triggersDependentOn "dial_bit0", ¬ Graph.clock.Solvable .latched
        ((highSeen.next (.write Graph.Clock.low.symbol true)).knowledgeWithout t) := by
  refine ⟨highSeen_answer, ?_⟩
  rcases failed_write_keeps_or_stays Graph.clock_isValid highSeen_reachable highSeen_answer with
    hkeeps | ⟨v, _, hsymbol, _, _, _, hwritten, hlatch⟩
  · exact absurd hkeeps not_keepsLedger_highSeen
  · have hname : v.name = "dial_bit0" := congrArg Symbol.name hsymbol
    rw [hname] at hwritten hlatch
    obtain ⟨t, ht, _, hunsolvable, _⟩ := hlatch Graph.clock_isLocal
    exact ⟨hwritten, t, ht, hunsolvable⟩

/-- A failed write may leave more behind than a look. -/
theorem highSeen_corrupted :
    ¬ ∀ (g : Graph) (w : World) (s : Symbol) (b : Bool) (e : Error), g.IsValid → Reachable g w →
      w.answer (.write s b) = .error e → KeepsLedger w (w.next (.write s b)) s := by
  intro hall
  exact not_keepsLedger_highSeen
    (hall _ _ _ _ _ Graph.clock_isValid highSeen_reachable highSeen_answer)

end World

end Chronicle
