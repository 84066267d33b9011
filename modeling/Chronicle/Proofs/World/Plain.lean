import Chronicle.Proofs.Formula.Locality
import Chronicle.Proofs.Period.Span
import Chronicle.Proofs.World.Operate

/-!
# Without travel a world is a plain evaluator

As long as nobody leaves the first period of a world without latches, all its records, flags and
searches come to this: an environment has a value for every mutable, beginning with the defaults; a
write that is not refused replaces one of them (`Graph.environmentAfter`); and whatever is read is
what the graph evaluates to on the environment.

`Runs g w env state` says that the world stands so.  Every call that does not travel keeps it
(`Runs.next`), if it leaves the dials in range, so it holds after every such history and gives all
answers to come (`plain_history_evaluates`).
-/

namespace Chronicle

/-- The call has nothing to do with other periods. -/
def Call.stays : Call → Bool
  | .travel _ => false
  | .canTravel _ => false
  | _ => true

namespace Graph

variable (g : Graph)

/-- Why a write is refused where the mutables have these values: only a mutable of the graph can be
written, and an irreversible one does not return to its default. -/
def refusal (env : Valuation) (s : Symbol) (b : Bool) : Option Error :=
  match g.require s with
  | .error e => some e
  | .ok v =>
    if v.isMutable then
      if !v.isReversible && env.get? v.name != some v.default && b == v.default then
        some (.irreversible v.name)
      else none
    else some (.notMutable v.name v.kind)

/-- The values of the mutables after a call: a write that is not refused replaces one. -/
def environmentAfter (env : Valuation) : Call → Valuation
  | .write s b => if (g.refusal env s b).isNone then env.set s.name b else env
  | _ => env

/-- The values of the mutables after a history. -/
def environment (env : Valuation) (calls : List Call) : Valuation :=
  calls.foldl g.environmentAfter env

/-- Every write of the history leaves all dials in range. -/
def KeepsRange : Valuation → List Call → Prop
  | _, [] => True
  | env, .write s b :: rest =>
    g.dialsValid (g.environmentAfter env (.write s b)) = .ok true ∧
      KeepsRange (g.environmentAfter env (.write s b)) rest
  | env, _ :: rest => KeepsRange env rest

end Graph

namespace World

variable {g : Graph} {w : World} {env state : Valuation} {v : Variable} {s : Symbol} {b : Bool}

/-- The world stands in its latest period, whose records come to the environment and to the state
that the graph evaluates to on it. -/
structure Runs (g : Graph) (w : World) (env state : Valuation) : Prop where
  graph_eq : w.graph = g
  latest : ∀ time ∈ w.timeline.times, time ≤ w.now
  mutables : ∀ name, env.contains name = true ↔ name ∈ g.mutables.map Variable.name
  evaluates : g.evaluateOn env = .ok state
  aligned : w.current.Aligned g
  spans : ∃ start, w.current.Spans g start state

theorem Runs.setPeriod {env' state' : Valuation} (h : Runs g w env state) {p : Period}
    (hp : p.time = w.now)
    (hm : ∀ name, env'.contains name = true ↔ name ∈ g.mutables.map Variable.name)
    (he : g.evaluateOn env' = .ok state') (ha : p.Aligned g)
    (hs : ∃ start, p.Spans g start state') : Runs g (w.setPeriod p) env' state' where
  graph_eq := h.graph_eq
  latest := by
    intro time ht
    rcases Timeline.mem_times_put.mp ht with rfl | ht
    · exact Int.le_of_eq hp
    · exact h.latest time ht
  mutables := hm
  evaluates := he
  aligned := (current_setPeriod hp).symm ▸ ha
  spans := (current_setPeriod hp).symm ▸ hs

section

variable (hg : g.WellFormed) (hl : g.IsLocal)

include hg hl

/-- **What is read is what the graph evaluates to.** -/
theorem Runs.peek_eq (h : Runs g w env state) (s : Symbol) : w.peek s = g.valueIn state s := by
  obtain rfl := h.graph_eq
  obtain ⟨_, hspans⟩ := h.spans
  exact peek_of_isCompletion hg hl hspans.now s

theorem Runs.get?_mutable (h : Runs g w env state) (hv : v ∈ g.declared)
    (hm : v.isMutable = true) :
    ∃ b, env.get? v.name = some b ∧ state.get? v.name = some b := by
  obtain ⟨hext, _⟩ := Graph.evaluateOn_eq_ok hg hl h.mutables h.evaluates
  obtain ⟨b, hb⟩ :=
    Table.contains_iff.mp ((h.mutables v.name).mpr ((hg.name_mem_mutables_iff hv).mpr hm))
  exact ⟨b, hb, hext _ _ hb⟩

end

section

variable (hg : g.IsValid) (hl : g.IsLocal) (hu : g.Untriggered)

include hg hl hu

theorem Runs.observed (h : Runs g w env state) (hv : v ∈ g.declared)
    (hb : state.get? v.name = some b) :
    Runs g (w.setPeriod (w.current.observed v.name b)) env state := by
  have hwell := hg.wellFormed
  obtain ⟨start, hspans⟩ := h.spans
  refine h.setPeriod (time_current w) h.mutables h.evaluates ?_
    ⟨start, hspans.observed hwell hg.closed hl hu h.aligned hv hb⟩
  refine h.aligned.observed hwell hv ?_
  intro c hc
  have hstate := hspans.now.extends_known _ _ ((Period.get?_currentState hwell.nodup hv).trans hc)
  exact Option.some.inj (hstate.symm.trans hb)

theorem Runs.looked (h : Runs g w env state) (hv : v ∈ g.declared)
    (hb : state.get? v.name = some b) : Runs g (w.looked v b) env state := by
  unfold World.looked
  split
  · exact h.observed hg hl hu hv hb
  · exact h

/-- **What is written replaces one value of the environment.** -/
theorem Runs.wrote (h : Runs g w env state) (hv : v ∈ g.declared) (hm : v.isMutable = true)
    (hrange : g.dialsValid (env.set v.name b) = .ok true) :
    ∃ state', Runs g (w.wrote v b) (env.set v.name b) state' := by
  have hwell := hg.wellFormed
  obtain rfl := h.graph_eq
  obtain ⟨start, hspans⟩ := h.spans
  obtain ⟨hext, _⟩ := Graph.evaluateOn_eq_ok hwell hl h.mutables h.evaluates
  obtain ⟨state', heval, hwritten⟩ := hspans.exists_written hwell hg.closed hl hu h.aligned hv hm
    h.mutables hext (Graph.dialsValid_eq_true_iff.mp hrange) w.settings.observeOnWrite
  refine ⟨state', h.setPeriod ?_ (Graph.contains_set_mutable hwell hv hm h.mutables b) heval ?_
    ⟨start, hwritten⟩⟩
  · exact (Period.time_written _ _ _ _).trans (time_current w)
  · exact Period.Aligned.written hwell h.aligned hv (Variable.isDerived_of_isMutable hm) _ b

theorem Runs.write_cases (h : Runs g w env state) (s : Symbol) (b : Bool) :
    (∃ e, g.refusal env s b = some e ∧ w.answer (.write s b) = .error e ∧
        Runs g (w.next (.write s b)) env state) ∨
      (g.refusal env s b = none ∧ w.answer (.write s b) = .ok none ∧
        (g.dialsValid (env.set s.name b) = .ok true →
          ∃ state', Runs g (w.next (.write s b)) (env.set s.name b) state')) := by
  have hwell := hg.wellFormed
  obtain rfl := h.graph_eq
  cases hr : w.graph.require s with
  | error e =>
    obtain ⟨hanswer, hnext⟩ := answer_write (write_run_refused s b (Or.inl hr))
    rw [hnext]
    refine Or.inl ⟨e, ?_, hanswer, h⟩
    rw [Graph.refusal, hr]
  | ok v =>
    obtain ⟨hv, rfl⟩ := Graph.require_eq_ok hr
    cases hm : v.isMutable with
    | false =>
      obtain ⟨hanswer, hnext⟩ :=
        answer_write (write_run_refused (w := w) v.symbol b (Or.inr ⟨v, hr, hm, rfl⟩))
      rw [hnext]
      refine Or.inl ⟨.notMutable v.name v.kind, ?_, hanswer, h⟩
      rw [Graph.refusal, hr]
      simp only [hm, Bool.false_eq_true, if_false]
    | true =>
      obtain ⟨prior, henv, hstate⟩ := h.get?_mutable hwell hl hv hm
      have hpeek : w.peek v.symbol = .ok prior :=
        (h.peek_eq hwell hl v.symbol).trans (Graph.valueIn_symbol hwell hv hstate)
      have hrun := write_run hwell hv hm (hu.triggersDependentOn hwell v.name)
        (Or.inr (Or.inr h.latest)) hpeek b
      have hrefusal : w.graph.refusal env v.symbol b =
          if forbids v prior b then some (.irreversible v.name) else none := by
        have hne : (some prior != some v.default) = (prior != v.default) := by
          cases prior <;> cases v.default <;> rfl
        rw [Graph.refusal, hr]
        simp only [hm, if_true, henv, hne]
        rfl
      have hlooked := h.looked hg hl hu hv hstate
      cases hf : forbids v prior b with
      | true =>
        rw [hf, if_pos rfl] at hrun hrefusal
        obtain ⟨hanswer, hnext⟩ := answer_write hrun
        rw [hnext]
        exact Or.inl ⟨_, hrefusal, hanswer, hlooked⟩
      | false =>
        rw [hf, if_neg Bool.false_ne_true] at hrun hrefusal
        obtain ⟨hanswer, hnext⟩ := answer_write hrun
        rw [hnext]
        exact Or.inr ⟨hrefusal, hanswer, fun hrange => hlooked.wrote hg hl hu hv hm hrange⟩

/-- **A call that stays** keeps the world a plain evaluator. -/
theorem Runs.next (h : Runs g w env state) {c : Call} (hc : c.stays = true)
    (hrange : ∀ s b, c = .write s b → g.dialsValid (g.environmentAfter env c) = .ok true) :
    ∃ state', Runs g (w.next c) (g.environmentAfter env c) state' := by
  have hwell := hg.wellFormed
  cases c with
  | travel time => cases hc
  | canTravel time => cases hc
  | assign field d =>
    exact ⟨state, h.graph_eq, h.latest, h.mutables, h.evaluates, h.aligned, h.spans⟩
  | peek s =>
    rw [(answer_peek w s).2]
    exact ⟨state, h⟩
  | read s =>
    have hpeek := h.peek_eq hwell hl s
    cases hp : w.peek s with
    | error e =>
      rw [(answer_read_error hp).2]
      exact ⟨state, h⟩
    | ok b =>
      rw [hpeek] at hp
      obtain ⟨v, hr, hb⟩ := bind_eq_ok.mp hp
      obtain ⟨hv, rfl⟩ := Graph.require_eq_ok hr
      rw [(answer_read (hpeek.trans hp)).2]
      exact ⟨state, h.observed hg hl hu hv (Valuation.read_eq_ok_iff.mp hb)⟩
  | write s b =>
    have hr := hrange s b rfl
    rw [Graph.environmentAfter] at hr ⊢
    rcases h.write_cases hg hl hu s b with ⟨e, hrefusal, _, hruns⟩ | ⟨hrefusal, _, hruns⟩
    · rw [hrefusal] at hr ⊢
      exact ⟨state, hruns⟩
    · rw [hrefusal] at hr ⊢
      exact hruns hr

theorem Runs.after {calls : List Call} (h : Runs g w env state)
    (hcalls : ∀ c ∈ calls, c.stays = true) (hrange : g.KeepsRange env calls) :
    ∃ state', Runs g (w.after calls) (g.environment env calls) state' := by
  induction calls generalizing w env state with
  | nil => exact ⟨state, h⟩
  | cons c rest ih =>
    have hfirst : (∀ s b, c = .write s b → g.dialsValid (g.environmentAfter env c) = .ok true) ∧
        g.KeepsRange (g.environmentAfter env c) rest := by
      cases c with
      | write s b =>
        refine ⟨?_, hrange.2⟩
        intro s' b' _
        exact hrange.1
      | _ => exact ⟨nofun, hrange⟩
    obtain ⟨state', h'⟩ := h.next hg hl hu (hcalls c List.mem_cons_self) hfirst.1
    exact ih h' (fun d hd => hcalls d (List.mem_cons_of_mem c hd)) hfirst.2

theorem runs_start (settings : Settings) (time? : Option Int) :
    ∃ state, Runs g (start g settings time?) g.defaults state := by
  have hwell := hg.wellFormed
  obtain ⟨state, heval, hspans⟩ := Period.exists_spans_blank hg hl hu
  have hcurrent : (start g settings time?).current = .blank (time?.getD settings.startTime) :=
    period_start g settings time? _
  refine ⟨state, rfl, ?_, Graph.contains_defaults_iff hwell, heval, ?_, state, ?_⟩
  · intro time ht
    rw [List.mem_singleton.mp ht]
    exact Int.le_refl _
  · rw [hcurrent]
    exact (Period.kept_aligned hwell).blank _
  · rw [hcurrent]
    exact hspans _

/-- **Without travel a world is a plain evaluator.**  After any history of peeks, reads, writes and
assignments in the first period, whose writes leave the dials in range, every peek and every read
gives what the graph evaluates to on the environment; that is a whole state, so they give a value
for every variable of the graph.  And a write is refused only as the environment refuses it. -/
theorem plain_history_evaluates (settings : Settings) (time? : Option Int) {calls : List Call}
    (hcalls : ∀ c ∈ calls, c.stays = true) (hrange : g.KeepsRange g.defaults calls) :
    ∃ state, g.evaluateOn (g.environment g.defaults calls) = .ok state ∧
      (∀ name, state.contains name = true ↔ name ∈ g.names) ∧
      ∀ s, ((start g settings time?).after calls).answer (.peek s) = some <$> g.valueIn state s ∧
        ((start g settings time?).after calls).answer (.read s) = some <$> g.valueIn state s ∧
        ∀ b, ((start g settings time?).after calls).answer (.write s b) =
          match g.refusal (g.environment g.defaults calls) s b with
          | some e => .error e
          | none => .ok none := by
  have hwell := hg.wellFormed
  obtain ⟨initial, hstart⟩ := runs_start hg hl hu settings time?
  obtain ⟨state, h⟩ := hstart.after hg hl hu hcalls hrange
  obtain ⟨_, htotal, _⟩ := Graph.evaluateOn_eq_ok hwell hl h.mutables h.evaluates
  refine ⟨state, h.evaluates, htotal, ?_⟩
  intro s
  have hpeek := h.peek_eq hwell hl s
  refine ⟨?_, ?_, ?_⟩
  · rw [(answer_peek _ s).1, hpeek]
  · rw [← hpeek]
    cases hp : ((start g settings time?).after calls).peek s with
    | error e => exact (answer_read_error hp).1
    | ok b => exact (answer_read hp).1
  · intro b
    rcases h.write_cases hg hl hu s b with ⟨e, hrefusal, hanswer, _⟩ | ⟨hrefusal, hanswer, _⟩
    · rw [hrefusal]
      exact hanswer
    · rw [hrefusal]
      exact hanswer

end

end World

/-! ### A gauge behind glass -/

namespace Graph

namespace Gauge

/-- Ranges over three numbers with two bits and starts in the middle. -/
def level : Dial := ⟨"level", 1, 2, 0, Nat.le_succ 1⟩

def low : Variable := ⟨⟨"level_bit0", 0⟩, .mutable true true, [], []⟩

def high : Variable := ⟨⟨"level_bit1", 1⟩, .mutable false true, [], []⟩

/-- Cannot be mended once it is broken. -/
def glass : Variable := ⟨⟨"glass", 2⟩, .mutable true false, [], []⟩

def full : Variable :=
  ⟨⟨"full", 3⟩, .derived (Formula.compare level .eq 2).rule, [low.symbol, high.symbol],
    [low.symbol, high.symbol]⟩

def entries : List Entry :=
  [⟨"level", .dial "level" 1 2, []⟩, ⟨"glass", .mutable "glass" true false, []⟩,
    ⟨"full", .derived "full" [.label "level"] (Formula.compare level .eq 2).rule, []⟩]

/-- Fills up by way of empty, and breaks the glass. -/
def filling : List Call :=
  [.read full.symbol, .write low.symbol false, .write high.symbol true, .write glass.symbol false]

end Gauge

open Gauge in
def gauge : Graph := ⟨[low, high, glass, full], [level], [full]⟩

theorem gauge_isValid : gauge.IsValid := by
  refine isValid_of_made gauge Gauge.entries rfl (fun _ hv => hv) ?_ rfl
  intro d hd
  exact ⟨"level", congrArg some (List.mem_singleton.mp hd).symm⟩

theorem gauge_isLocal : gauge.IsLocal := by
  apply isLocal_of_reads
  intro v hv rule hr
  simp only [gauge, List.mem_cons, List.not_mem_nil, or_false] at hv
  rcases hv with rfl | rfl | rfl | rfl
  · cases hr
  · cases hr
  · cases hr
  · cases hr
    exact ⟨.compare Gauge.level .eq 2, rfl, by decide⟩

theorem gauge_untriggered : gauge.Untriggered := by decide

end Graph

namespace World

/-- The gauge reads full, and the glass stays broken. -/
theorem plain_history_evaluates_gauge :
    (∀ c ∈ Graph.Gauge.filling, c.stays = true) ∧
      Graph.gauge.KeepsRange Graph.gauge.defaults Graph.Gauge.filling ∧
      ((start Graph.gauge .standard none).after Graph.Gauge.filling).answer
        (.read Graph.Gauge.full.symbol) = .ok (some true) ∧
      ((start Graph.gauge .standard none).after Graph.Gauge.filling).answer
        (.write Graph.Gauge.glass.symbol true) = .error (.irreversible "glass") := by
  have hstays : ∀ c ∈ Graph.Gauge.filling, c.stays = true := by
    intro c hc
    simp only [Graph.Gauge.filling, List.mem_cons, List.not_mem_nil, or_false] at hc
    rcases hc with rfl | rfl | rfl | rfl <;> rfl
  have hrange : Graph.gauge.KeepsRange Graph.gauge.defaults Graph.Gauge.filling := by
    refine ⟨?_, ?_, ?_, trivial⟩ <;> decide +kernel
  obtain ⟨state, heval, _, hanswers⟩ := plain_history_evaluates Graph.gauge_isValid
    Graph.gauge_isLocal Graph.gauge_untriggered .standard none hstays hrange
  have hstate : Graph.gauge.evaluateOn
      (Graph.gauge.environment Graph.gauge.defaults Graph.Gauge.filling) = .ok (.ofList
        [("level_bit0", false), ("level_bit1", true), ("glass", false), ("full", true)]) := by
    decide +kernel
  rw [hstate] at heval
  cases heval
  refine ⟨hstays, hrange, ?_, ?_⟩
  · rw [(hanswers _).2.1]
    decide +kernel
  · rw [(hanswers _).2.2]
    decide +kernel

end World

end Chronicle
