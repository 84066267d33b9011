import Chronicle.Proofs.Search.Solve
import Chronicle.Proofs.World.Reach

/-!
# How reads and writes run

Where the knowledge of a world is solved, a peek and a read give the value in the solution, whether
the period knows it or not (`peek_of_solve`).  A write looks at what it replaces, writes, and
follows that up (`write_run_of_peek`).  If no latch depends on it and it is not reconciled with a
later period it comes to at most two records: what was read before it, and what it writes
(`write_run`).
-/

namespace Chronicle

namespace Graph

variable {g : Graph} {v : Variable}

def valueIn (g : Graph) (state : Valuation) (s : Symbol) : Except Error Bool := do
  let v ← g.require s
  state.read v.name

theorem valueIn_symbol (hg : g.WellFormed) (hv : v ∈ g.declared) {state : Valuation} {b : Bool}
    (hb : state.get? v.name = some b) : g.valueIn state v.symbol = .ok b := by
  rw [valueIn, hg.require_symbol hv, ok_bind]
  exact Valuation.read_eq_ok_iff.mpr hb

theorem valueIn_congr {state state' : Valuation}
    (h : ∀ name, state.get? name = state'.get? name) (s : Symbol) :
    g.valueIn state s = g.valueIn state' s := by
  unfold valueIn Valuation.read
  simp only [h]

end Graph

namespace Timeline

theorem mem_times_put {l : Timeline} {p : Period} {time : Int} :
    time ∈ (l.put p).times ↔ time = p.time ∨ time ∈ l.times := by
  suffices hin : ∀ ps : List Period,
      time ∈ (putIn p ps).map Period.time ↔ time = p.time ∨ time ∈ ps.map Period.time from
    hin l.periods
  intro ps
  induction ps with
  | nil => simp [putIn]
  | cons q rest ih =>
    unfold putIn
    split
    · simp
    · split
      next he => simp [he]
      · rw [List.map_cons, List.mem_cons, ih, List.map_cons, List.mem_cons]
        tauto

/-- There is one period for each time, in order. -/
def Ascending (l : Timeline) : Prop := l.times.Pairwise (· < ·)

theorem Ascending.put {l : Timeline} (h : l.Ascending) (p : Period) : (l.put p).Ascending := by
  suffices hin : ∀ ps : List Period, (ps.map Period.time).Pairwise (· < ·) →
      ((putIn p ps).map Period.time).Pairwise (· < ·) from hin l.periods h
  intro ps hps
  induction ps with
  | nil => simp [putIn]
  | cons q rest ih =>
    rw [List.map_cons, List.pairwise_cons] at hps
    obtain ⟨hq, hrest⟩ := hps
    unfold putIn
    split
    next hlt =>
      rw [List.map_cons, List.map_cons, List.pairwise_cons, List.pairwise_cons]
      refine ⟨?_, hq, hrest⟩
      intro time ht
      rcases List.mem_cons.mp ht with rfl | ht
      · exact hlt
      · exact Int.lt_trans hlt (hq time ht)
    next hge =>
      split
      next he =>
        rw [List.map_cons, List.pairwise_cons, he]
        exact ⟨hq, hrest⟩
      next hne =>
        rw [List.map_cons, List.pairwise_cons]
        refine ⟨?_, ih hrest⟩
        intro time ht
        have hmem : time ∈ ((Timeline.mk rest).put p).times := ht
        rcases mem_times_put.mp hmem with rfl | ht
        · omega
        · exact hq time ht

theorem Ascending.times_put {l : Timeline} (h : l.Ascending) {p : Period}
    (hp : p.time ∈ l.times) : (l.put p).times = l.times := by
  suffices hin : ∀ ps : List Period, (ps.map Period.time).Pairwise (· < ·) →
      p.time ∈ ps.map Period.time → (putIn p ps).map Period.time = ps.map Period.time from
    hin l.periods h hp
  intro ps hps hp
  induction ps with
  | nil => cases hp
  | cons q rest ih =>
    rw [List.map_cons, List.pairwise_cons] at hps
    obtain ⟨hq, hrest⟩ := hps
    have hcase : p.time = q.time ∨ p.time ∈ rest.map Period.time := List.mem_cons.mp hp
    unfold putIn
    split
    next hlt =>
      -- It would come before the first of them.
      rcases hcase with he | hlater
      · omega
      · have hafter := hq p.time hlater
        omega
    next =>
      split
      next he => rw [List.map_cons, List.map_cons, he]
      next hne => rw [List.map_cons, List.map_cons, ih hrest (hcase.resolve_left hne)]

theorem later_times_put (l : Timeline) (p : Period) :
    (l.put p).times.filter (fun time => p.time < time) =
      l.times.filter fun time => p.time < time := by
  suffices hin : ∀ ps : List Period,
      ((putIn p ps).map Period.time).filter (fun time => p.time < time) =
        (ps.map Period.time).filter fun time => p.time < time from hin l.periods
  intro ps
  induction ps with
  | nil => simp [putIn]
  | cons q rest ih =>
    unfold putIn
    split
    · simp
    · split
      next he => simp [he]
      · rw [List.map_cons, List.map_cons, List.filter_cons, List.filter_cons, ih]

end Timeline

namespace World

open Relation (ReflTransGen)

variable {w : World} {s : Symbol} {v : Variable} {prior b : Bool} {α β : Type}

theorem time_current (w : World) : w.current.time = w.now := w.timeline.time_period w.now

theorem current_observed (w : World) (name : String) (b : Bool) :
    (w.setPeriod (w.current.observed name b)).current = w.current.observed name b :=
  current_setPeriod (time_current w)

theorem current_fired (w : World) (g : Graph) (t : Variable) :
    (w.setPeriod (w.current.fired g t)).current = w.current.fired g t :=
  current_setPeriod ((Period.time_fired _ _).trans (time_current w))

/-! ### Reads -/

section

variable {state : Valuation} (hg : w.graph.WellFormed)

include hg

theorem get?_knowledge (hv : v ∈ w.graph.declared) :
    w.knowledge.get? v.name = w.current.peek v.name := Period.get?_collect_name hg.nodup _ hv

theorem isKnowledge_knowledge : w.graph.IsKnowledge w.knowledge := isKnowledge_collect hg _

/-- **Where the knowledge is solved, a peek gives the value in the solution**, whether the period
knows it or not. -/
theorem peek_of_solve (hsolve : w.graph.solve w.knowledge = .ok (some state))
    (hext : state.Extends w.knowledge) (s : Symbol) : w.peek s = w.graph.valueIn state s := by
  unfold peek Graph.valueIn
  cases hr : w.graph.require s with
  | error e => rfl
  | ok v =>
    rw [ok_bind, ok_bind]
    cases hp : w.current.peek v.name with
    | none =>
      have hresolve : w.resolve w.knowledge = .ok state := by
        rw [resolve, hsolve]
        rfl
      simp only [hresolve, ok_bind]
    | some b =>
      have hknown : w.knowledge.get? v.name = some b :=
        (get?_knowledge hg (Graph.require_eq_ok hr).1).trans hp
      rw [Valuation.read_eq_ok_iff.mpr (hext _ _ hknown)]
      rfl

theorem resolve_of_unsolvable (hl : w.graph.IsLocal) {known : Valuation}
    (h : ¬ w.graph.Solvable .latched known) :
    w.resolve known = .error (.noCompletion w.now (w.graph.describe known)) := by
  have hnone : w.graph.solve known = .ok none := by
    rcases Graph.findConsistent_cases hg hl .latched known with ⟨q, _, hq, hc⟩ | ⟨hfind, _⟩
    · exact absurd ⟨q, hq, hc⟩ h
    · rw [Graph.solve, hfind]
      rfl
  rw [resolve, hnone]
  rfl

theorem peek_of_isCompletion (hl : w.graph.IsLocal)
    (h : w.graph.IsCompletion .latched w.knowledge state) (s : Symbol) :
    w.peek s = w.graph.valueIn state s := by
  obtain ⟨t, hsolve, hsame⟩ := Graph.solve_of_isCompletion hg hl h
  have hext : t.Extends w.knowledge := fun name b hb => (hsame name).trans (h.extends_known _ _ hb)
  rw [peek_of_solve hg hsolve hext s]
  exact Graph.valueIn_congr hsame s

end

theorem peek_of_current (hg : w.graph.WellFormed) (hv : v ∈ w.graph.declared)
    (hp : w.current.peek v.name = some b) : w.peek v.symbol = .ok b := by
  unfold peek
  rw [hg.require_symbol hv, ok_bind, hp]
  rfl

theorem read_run_ok (h : w.peek s = .ok b) :
    (read s).run w = (.ok b, w.setPeriod (w.current.observed s.name b)) := by
  unfold read
  rw [run_get_bind, h]
  rfl

theorem read_run_error {e : Error} (h : w.peek s = .error e) : (read s).run w = (.error e, w) := by
  unfold read
  rw [run_get_bind, h]
  rfl

/-! ### Writes -/

section

theorem run_lift_bind (a : α) (f : α → Action β) (w : World) :
    ((liftM (Except.ok a : Except Error α) : Action α) >>= f).run w = (f a).run w := (rfl)

theorem run_modifyCurrent_bind (f : Period → Period) (k : Unit → Action β) (w : World) :
    (modifyCurrent f >>= k).run w = (k ()).run (w.setPeriod (f w.current)) := (rfl)

end

/-- A write of the variable is not reconciled with any later period. -/
def Quiet (w : World) (v : Variable) : Prop :=
  v.isReversible = true ∨ w.settings.reconcileWrites = false ∨
    ∀ time ∈ w.timeline.times, time ≤ w.now

/-- The world after a write has looked at what it replaces. -/
def looked (w : World) (v : Variable) (prior : Bool) : World :=
  if w.settings.observeOnWrite then w.setPeriod (w.current.observed v.name prior) else w

/-- The world after a write that nothing refuses. -/
def wrote (w : World) (v : Variable) (b : Bool) : World :=
  w.setPeriod (w.current.written w.graph w.settings.observeOnWrite v b)

/-- An irreversible variable that is not at its default does not return there. -/
def forbids (v : Variable) (prior b : Bool) : Bool :=
  !v.isReversible && prior != v.default && b == v.default

theorem looked_eq (w : World) (v : Variable) (prior : Bool) :
    (w.looked v prior).graph = w.graph ∧ (w.looked v prior).settings = w.settings ∧
      (w.looked v prior).now = w.now := by
  unfold looked
  split
  · exact ⟨rfl, rfl, rfl⟩
  · exact ⟨rfl, rfl, rfl⟩

theorem reconciliationLog_wrote (w : World) (v : Variable) (prior b : Bool) :
    ((w.looked v prior).wrote v b).reconciliationLog = w.reconciliationLog := by
  show (w.looked v prior).reconciliationLog = _
  unfold looked
  split
  · rfl
  · rfl

theorem Quiet.setPeriod (h : w.Quiet v) {p : Period} (hp : p.time = w.now) :
    (w.setPeriod p).Quiet v := by
  refine h.imp_right (Or.imp_right ?_)
  intro hall time ht
  rcases Timeline.mem_times_put.mp ht with rfl | ht
  · exact Int.le_of_eq hp
  · exact hall time ht

theorem Quiet.looked (h : w.Quiet v) (prior : Bool) : (w.looked v prior).Quiet v := by
  unfold World.looked
  split
  · exact h.setPeriod (time_current w)
  · exact h

theorem reconcileFuture_run (cause : Variable) (h : ∀ time ∈ w.timeline.times, time ≤ w.now) :
    (reconcileFuture cause).run w = (.ok (), w) := by
  have hnone : w.timeline.times.filter (fun time => w.now < time) = [] := by
    rw [List.filter_eq_nil_iff]
    intro time ht
    simpa using h time ht
  unfold reconcileFuture
  rw [run_get_bind, hnone]
  rfl

theorem reconcile_run (h : w.Quiet v) (k : Unit → Action β) :
    (if !v.isReversible && w.settings.reconcileWrites then reconcileFuture v >>= k
      else k ()).run w = (k ()).run w := by
  split
  next hc =>
    rw [Bool.and_eq_true, Bool.not_eq_true'] at hc
    rcases h with h | h | h
    · rw [hc.1] at h
      cases h
    · rw [hc.2] at h
      cases h
    · exact run_bind_ok (reconcileFuture_run v h)
  next => rfl

theorem look_run (hp : w.peek v.symbol = .ok prior) (k : Bool → Action β) :
    (if w.settings.observeOnWrite then read v.symbol >>= k
      else liftM (w.peek v.symbol) >>= k).run w = (k prior).run (w.looked v prior) := by
  unfold looked
  cases w.settings.observeOnWrite with
  | true => exact run_bind_ok (read_run_ok hp)
  | false =>
    rw [hp]
    exact run_lift_bind prior k w

theorem wrote_run (v : Variable) (b : Bool) (k : Unit → Action β) (w : World) :
    (modifyCurrent (fun p => p.modified w.graph v.name b) >>= fun _ =>
      if w.settings.observeOnWrite then modifyCurrent (fun p => p.observed v.name b) >>= k
      else k ()).run w = (k ()).run (w.wrote v b) := by
  have htime : (w.current.modified w.graph v.name b).time = w.now :=
    (Period.time_modified _ _ _).trans (time_current w)
  rw [run_modifyCurrent_bind, wrote, Period.written]
  cases w.settings.observeOnWrite with
  | true =>
    have hput := setPeriod_setPeriod w (p := w.current.modified w.graph v.name b)
      (q := (w.current.modified w.graph v.name b).observed v.name b) rfl
    rw [if_pos rfl, if_pos rfl, run_modifyCurrent_bind, current_setPeriod htime, hput]
  | false => rfl

/-- What a write does once its period is written: an irreversible one is reconciled with later
periods, and then latches are examined. -/
def followUp (v : Variable) : Action Unit := do
  let w ← get
  if !v.isReversible && w.settings.reconcileWrites then reconcileFuture v
  reconcileFirings (← fireAll (w.graph.triggersDependentOn v.name))

/-- **A write looks at what it replaces**, and unless that forbids it writes and follows it up. -/
theorem write_run_of_peek (hg : w.graph.WellFormed) (hv : v ∈ w.graph.declared)
    (hm : v.isMutable = true) (hp : w.peek v.symbol = .ok prior) (b : Bool) :
    (write v.symbol b).run w =
      if forbids v prior b then (.error (.irreversible v.name), w.looked v prior)
      else (followUp v).run ((w.looked v prior).wrote v b) := by
  obtain ⟨hgraph, hsettings, _⟩ := looked_eq w v prior
  unfold write
  rw [run_get_bind, hg.require_symbol hv, run_lift_bind, hm]
  simp only [Bool.not_true, Bool.false_eq_true, if_false]
  rw [look_run hp]
  unfold forbids
  cases !v.isReversible && prior != v.default && b == v.default with
  | true => rfl
  | false =>
    simp only [Bool.false_eq_true, if_false]
    rw [← hgraph, ← hsettings, wrote_run v b]
    rfl

theorem write_run_unseen (hg : w.graph.WellFormed) (hv : v ∈ w.graph.declared)
    (hm : v.isMutable = true) {e : Error} (hp : w.peek v.symbol = .error e) (b : Bool) :
    (write v.symbol b).run w = (.error e, w) := by
  unfold write
  rw [run_get_bind, hg.require_symbol hv, run_lift_bind, hm]
  simp only [Bool.not_true, Bool.false_eq_true, if_false]
  cases w.settings.observeOnWrite with
  | true =>
    rw [if_pos rfl, run_bind, read_run_error hp]
  | false =>
    rw [if_neg Bool.false_ne_true, hp]
    rfl

theorem stays_followUp (hg : w.graph.WellFormed) (v : Variable) :
    Stays Aftermath (followUp v) w := by
  unfold followUp
  apply stays_get_bind
  refine stays_when (fun _ => (stays_reconcileFuture hg v).aftermath) ?_
  intro w' hw
  have hsame := graph_eq_of_aftermath hw
  rw [← hsame] at hg ⊢
  exact stays_examine hg v.name

/-- **A quiet write that no latch depends on** looks at what it replaces, and unless that forbids it
writes. -/
theorem write_run (hg : w.graph.WellFormed) (hv : v ∈ w.graph.declared) (hm : v.isMutable = true)
    (ht : w.graph.triggersDependentOn v.name = []) (hq : w.Quiet v)
    (hp : w.peek v.symbol = .ok prior) (b : Bool) :
    (write v.symbol b).run w =
      if forbids v prior b then (.error (.irreversible v.name), w.looked v prior)
      else (.ok (), (w.looked v prior).wrote v b) := by
  obtain ⟨hgraph, _⟩ := looked_eq w v prior
  have hquiet : ((w.looked v prior).wrote v b).Quiet v :=
    (hq.looked prior).setPeriod ((Period.time_written _ _ _ _).trans (time_current _))
  have htriggers : ((w.looked v prior).wrote v b).graph.triggersDependentOn v.name = [] := by
    show (w.looked v prior).graph.triggersDependentOn v.name = []
    rw [hgraph, ht]
  have hfollow : (followUp v).run ((w.looked v prior).wrote v b) =
      (.ok (), (w.looked v prior).wrote v b) := by
    unfold followUp
    rw [run_get_bind, htriggers, reconcile_run hquiet]
    rfl
  rw [write_run_of_peek hg hv hm hp, hfollow]

theorem write_run_refused {e : Error} (s : Symbol) (b : Bool)
    (h : w.graph.require s = .error e ∨
      ∃ v, w.graph.require s = .ok v ∧ v.isMutable = false ∧ e = .notMutable v.name v.kind) :
    (write s b).run w = (.error e, w) := by
  rcases h with h | ⟨v, hr, hm, rfl⟩
  · exact write_run_foreign h b
  · unfold write
    rw [run_get_bind, hr, run_lift_bind, hm]
    rfl

/-! ### Reads and writes as calls -/

theorem answer_peek (w : World) (s : Symbol) :
    w.answer (.peek s) = some <$> w.peek s ∧ w.next (.peek s) = w := by
  have hrun : (perform (.peek s)).run w = (some <$> w.peek s, w) := by
    unfold perform
    rw [run_get_bind]
    cases w.peek s <;> rfl
  exact ⟨congrArg Prod.fst hrun, congrArg Prod.snd hrun⟩

theorem answer_peek_of_solve {state : Valuation} (hg : w.graph.WellFormed)
    (hsolve : w.graph.solve w.knowledge = .ok (some state)) (hext : state.Extends w.knowledge)
    (hv : v ∈ w.graph.declared) (hb : state.get? v.name = some b) :
    w.answer (.peek v.symbol) = .ok (some b) := by
  rw [(answer_peek w v.symbol).1, peek_of_solve hg hsolve hext, Graph.valueIn_symbol hg hv hb]
  rfl

theorem answer_peek_of_isCompletion {state : Valuation} (hg : w.graph.WellFormed)
    (hl : w.graph.IsLocal) (h : w.graph.IsCompletion .latched w.knowledge state)
    (hv : v ∈ w.graph.declared) (hb : state.get? v.name = some b) :
    w.answer (.peek v.symbol) = .ok (some b) := by
  rw [(answer_peek w v.symbol).1, peek_of_isCompletion hg hl h, Graph.valueIn_symbol hg hv hb]
  rfl

theorem answer_read (h : w.peek s = .ok b) :
    w.answer (.read s) = .ok (some b) ∧
      w.next (.read s) = w.setPeriod (w.current.observed s.name b) :=
  ⟨congrArg Prod.fst (run_some_ok (read_run_ok h)), congrArg Prod.snd (run_some_ok (read_run_ok h))⟩

theorem answer_read_error {e : Error} (h : w.peek s = .error e) :
    w.answer (.read s) = .error e ∧ w.next (.read s) = w := by
  have hrun : (some <$> read s).run w = (.error e, w) := by
    rw [run_some, read_run_error h]
    rfl
  exact ⟨congrArg Prod.fst hrun, congrArg Prod.snd hrun⟩

theorem answer_write {r : Except Error Unit} {w' : World} (h : (write s b).run w = (r, w')) :
    w.answer (.write s b) = r.map (fun _ => none) ∧ w.next (.write s b) = w' := by
  have hrun : (perform (.write s b)).run w = (r.map (fun _ => none), w') := by
    show (write s b >>= fun _ => pure none).run w = _
    rw [run_bind, h]
    cases r <;> rfl
  exact ⟨congrArg Prod.fst hrun, congrArg Prod.snd hrun⟩

/-- **A write that returns** has looked, and has written what nothing forbids. -/
theorem followUp_run_of_answer (hg : w.graph.WellFormed) (hv : v ∈ w.graph.declared)
    (hm : v.isMutable = true) (h : w.answer (.write v.symbol b) = .ok none) :
    ∃ prior, w.peek v.symbol = .ok prior ∧ forbids v prior b = false ∧
      (followUp v).run ((w.looked v prior).wrote v b) = (.ok (), w.next (.write v.symbol b)) := by
  cases hp : w.peek v.symbol with
  | error e =>
    rw [(answer_write (write_run_unseen hg hv hm hp b)).1] at h
    cases h
  | ok prior =>
    have hrun := write_run_of_peek hg hv hm hp b
    cases hf : forbids v prior b with
    | true =>
      rw [hf, if_pos rfl] at hrun
      rw [(answer_write hrun).1] at h
      cases h
    | false =>
      rw [hf, if_neg Bool.false_ne_true] at hrun
      refine ⟨prior, rfl, hf, ?_⟩
      rcases hfollow : (followUp v).run ((w.looked v prior).wrote v b) with ⟨e | ⟨⟩, w'⟩
      · rw [(answer_write (hrun.trans hfollow)).1] at h
        cases h
      · rw [(answer_write (hrun.trans hfollow)).2]

/-- **What a write can leave behind**: the world as it was, the world in which it has looked, or one
that comes from the world in which it has written. -/
theorem next_write_cases (hg : w.graph.WellFormed) (s : Symbol) (b : Bool) :
    w.next (.write s b) = w ∨
      ∃ v ∈ w.graph.declared, v.isMutable = true ∧ v.symbol = s ∧ ∃ prior, w.peek s = .ok prior ∧
        (forbids v prior b = true ∧ w.next (.write s b) = w.looked v prior ∨
          forbids v prior b = false ∧
            ReflTransGen Aftermath ((w.looked v prior).wrote v b) (w.next (.write s b))) := by
  cases hr : w.graph.require s with
  | error e => exact Or.inl (answer_write (write_run_refused s b (Or.inl hr))).2
  | ok v =>
    obtain ⟨hv, rfl⟩ := Graph.require_eq_ok hr
    cases hm : v.isMutable with
    | false =>
      exact Or.inl (answer_write (write_run_refused _ b (Or.inr ⟨v, hr, hm, rfl⟩))).2
    | true =>
      cases hp : w.peek v.symbol with
      | error e => exact Or.inl (answer_write (write_run_unseen hg hv hm hp b)).2
      | ok prior =>
        refine Or.inr ⟨v, hv, hm, rfl, prior, rfl, ?_⟩
        have hrun := write_run_of_peek hg hv hm hp b
        cases hf : forbids v prior b with
        | true =>
          rw [hf, if_pos rfl] at hrun
          exact Or.inl ⟨rfl, (answer_write hrun).2⟩
        | false =>
          rw [hf, if_neg Bool.false_ne_true] at hrun
          refine Or.inr ⟨rfl, ?_⟩
          rw [(answer_write hrun).2]
          exact stays_followUp (by rwa [wrote, setPeriod, (looked_eq w v prior).1]) v

end World

end Chronicle
