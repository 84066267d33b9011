import Chronicle.Proofs.Period.Reconcilable
import Chronicle.Proofs.Search.Fenced
import Chronicle.Proofs.World.Readable

/-!
# One lever does not move another

A write of a reversible mutable touches no record but its own and those of what is derived from it
(`sameBut_wrote`).  Another mutable can move all the same if it has not been read: its value may be
implied by a derived value that the write makes the period forget, and then the search takes it back
to its default (`draining_moves`).

A mutable that is known stays, of course.  One that is not known stays if nothing is flipped before
or after, because both ends of the period have completions by defaults; and it stays if the mutable
that is written is fenced, so that what is known above it says nothing of unknown ones
(`other_levers_stay`).
-/

namespace Chronicle

namespace Graph

instance decidableFenced (g : Graph) (p : Valuation) (v : Variable) : Decidable (g.Fenced p v) :=
  inferInstanceAs (Decidable (∀ d ∈ g.declared, d.dependsOn v.name = true → p.get? d.name ≠ none →
    ∀ m ∈ g.declared, m.isMutable = true → d.dependsOn m.name = true → p.get? m.name ≠ none))

end Graph

namespace World

variable {g : Graph} {w : World} {u v : Variable} {prior b : Bool}

theorem current_looked (w : World) (v : Variable) (prior : Bool) :
    (w.looked v prior).current =
      if w.settings.observeOnWrite then w.current.observed v.name prior else w.current := by
  unfold looked
  split
  · exact current_observed w v.name prior
  · rfl

theorem current_wrote (w : World) (v : Variable) (b : Bool) :
    (w.wrote v b).current = w.current.written w.graph w.settings.observeOnWrite v b :=
  current_setPeriod ((Period.time_written _ _ _ _).trans (time_current w))

section

variable (hg : w.graph.WellFormed) (hv : v ∈ w.graph.declared)

include hg hv

/-- **To look and to write** leaves the record of what neither is nor depends on what is written. -/
theorem record_wrote (hu : u ∈ w.graph.declared) (hne : u ≠ v)
    (hdep : u.dependsOn v.name = false) (prior b : Bool) :
    ((w.looked v prior).wrote v b).current.record u.name = w.current.record u.name := by
  obtain ⟨hgraph, hsettings, _⟩ := looked_eq w v prior
  rw [current_wrote, hgraph, hsettings, Period.record_written_of_apart hg hv hu hne
    (fun _ => hdep), current_looked]
  split
  · exact Period.record_observed_of_ne hg hv hu hne
  · rfl

theorem sameBut_wrote (prior b : Bool) :
    w.graph.SameBut v w.knowledge ((w.looked v prior).wrote v b).knowledge := by
  intro u hu hne hdep
  have hgraph : ((w.looked v prior).wrote v b).graph = w.graph := (looked_eq w v prior).1
  rw [get?_knowledge hg hu, get?_knowledge (hgraph ▸ hg) (hgraph ▸ hu), Period.peek, Period.peek,
    record_wrote hg hv hu hne hdep]

theorem get?_knowledge_wrote (hm : v.isMutable = true) (prior b : Bool) :
    ((w.looked v prior).wrote v b).knowledge.get? v.name = some b := by
  obtain ⟨hgraph, hsettings, _⟩ := looked_eq w v prior
  have hgraph' : ((w.looked v prior).wrote v b).graph = w.graph := hgraph
  rw [get?_knowledge (hgraph' ▸ hg) (hgraph' ▸ hv), current_wrote, hgraph]
  exact Period.peek_written_self hg hv (Variable.isDerived_of_isMutable hm) _ b

end

theorem exists_state_of_readable (hg : w.graph.WellFormed) (hl : w.graph.IsLocal)
    (h : w.current.Readable w.graph) :
    ∃ M, w.graph.solve w.knowledge = .ok (some M) ∧ w.graph.IsModel .latched w.knowledge M ∧
      ∀ s, w.peek s = w.graph.valueIn M s := by
  obtain ⟨N, hN⟩ := (Period.readable_iff hg hl).mp h
  obtain ⟨M, hsolve, hmodel⟩ :=
    Graph.exists_solve hg hl (isKnowledge_knowledge hg) hN
  exact ⟨M, hsolve, hmodel, peek_of_solve hg hsolve hmodel.extends_known⟩

theorem completes_wrote (hg : w.graph.IsValid) (hl : w.graph.IsLocal) (hu : w.graph.Untriggered)
    (hd : w.graph.dials = []) (ha : w.current.Aligned w.graph) (h : w.current.Completes w.graph)
    (hv : v ∈ w.graph.declared) (hm : v.isMutable = true) (hp : w.peek v.symbol = .ok prior)
    (b : Bool) : ((w.looked v prior).wrote v b).current.Completes w.graph := by
  have hwell := hg.wellFormed
  obtain ⟨hgraph, _⟩ := looked_eq w v prior
  have hvalue : ∀ E, w.graph.IsCompletion .latched (w.current.currentState w.graph) E →
      E.get? v.name = some prior := by
    intro E hE
    rw [peek_of_isCompletion hwell hl hE, Graph.valueIn, hwell.require_symbol hv] at hp
    exact Valuation.read_eq_ok_iff.mp hp
  have hseen : ∀ c, w.current.peek v.name = some c → c = prior := by
    intro c hc
    rw [peek_of_current hwell hv hc] at hp
    exact Except.ok.inj hp
  rw [current_wrote, hgraph, current_looked]
  split
  · exact (h.observed hg hl hu ha hv hvalue).written hg hl hu hd (ha.observed hwell hv hseen) hv hm
      _ b
  · exact h.written hg hl hu hd ha hv hm _ b

/-! ### Three reasons for a lever to stay -/

section

variable (hg : w.graph.IsValid) (hv : v ∈ w.graph.declared) (hu : u ∈ w.graph.declared)
  (hk : u.isMutable = true) (hne : u ≠ v)

include hg hv hu hk hne

theorem record_wrote_mutable (prior b : Bool) :
    ((w.looked v prior).wrote v b).current.record u.name = w.current.record u.name := by
  exact record_wrote hg.wellFormed hv hu hne (hg.dependsOn_mutable hu hk v.name) prior b

theorem peek_wrote_of_known (h : w.current.peek u.name ≠ none) (prior b : Bool) :
    ((w.looked v prior).wrote v b).peek u.symbol = w.peek u.symbol := by
  have hwell := hg.wellFormed
  have hgraph : ((w.looked v prior).wrote v b).graph = w.graph := (looked_eq w v prior).1
  obtain ⟨c, hc⟩ := Option.ne_none_iff_exists'.mp h
  have hc' : ((w.looked v prior).wrote v b).current.peek u.name = some c := by
    rw [Period.peek, record_wrote_mutable hg hv hu hk hne]
    exact hc
  rw [peek_of_current hwell hu hc]
  exact peek_of_current (hgraph ▸ hwell) (hgraph ▸ hu) hc'

variable (hm : v.isMutable = true) (hl : w.graph.IsLocal) (htriggers : w.graph.Untriggered)
  (hdials : w.graph.dials = [])

include hm hl htriggers hdials

/-- Where nothing is flipped every mutable is as it is known, or at its default. -/
theorem peek_wrote_of_completes (ha : w.current.Aligned w.graph)
    (h : w.current.Completes w.graph) (hp : w.peek v.symbol = .ok prior) (b : Bool) :
    ((w.looked v prior).wrote v b).peek u.symbol = w.peek u.symbol := by
  have hwell := hg.wellFormed
  have hgraph : ((w.looked v prior).wrote v b).graph = w.graph := (looked_eq w v prior).1
  have hafter := completes_wrote hg hl htriggers hdials ha h hv hm hp b
  obtain ⟨E, hE⟩ := (Graph.consistent_iff_exists_isCompletion hwell hl
    (Period.isKnowledge_currentState hwell _)).mp h.2
  obtain ⟨E', hE'⟩ := (Graph.consistent_iff_exists_isCompletion hwell hl
    (Period.isKnowledge_currentState hwell _)).mp hafter.2
  have hpeek' := peek_of_isCompletion (w := (w.looked v prior).wrote v b) (hgraph ▸ hwell)
    (hgraph ▸ hl) (by rw [knowledge, hgraph]; exact hE') u.symbol
  -- Both completions have the mutable as the record of it says, and that is the same.
  have hsame : E'.get? u.name = E.get? u.name := by
    rw [hE'.get?_mutable hu hk, hE.get?_mutable hu hk, Period.get?_currentState hwell.nodup hu,
      Period.get?_currentState hwell.nodup hu, Period.peek, Period.peek,
      record_wrote_mutable hg hv hu hk hne]
  obtain ⟨c, hc⟩ := hE.toIsModel.exists_get? hu
  rw [peek_of_isCompletion hwell hl hE, hpeek', hgraph, Graph.valueIn_symbol hwell hu hc,
    Graph.valueIn_symbol hwell hu (hsame.trans hc)]

/-- If the mutable is fenced, the search answers the same on every other one. -/
theorem peek_wrote_of_fenced (h : w.current.Readable w.graph)
    (h' : ((w.looked v prior).wrote v b).current.Readable w.graph)
    (hfenced : w.graph.Fenced w.knowledge v)
    (hfenced' : w.graph.Fenced ((w.looked v prior).wrote v b).knowledge v) :
    ((w.looked v prior).wrote v b).peek u.symbol = w.peek u.symbol := by
  have hwell := hg.wellFormed
  have hgraph : ((w.looked v prior).wrote v b).graph = w.graph := (looked_eq w v prior).1
  obtain ⟨M, hsolve, hmodel, hpeek⟩ := exists_state_of_readable hwell hl h
  obtain ⟨M', hsolve', _, hpeek'⟩ :=
    exists_state_of_readable (hgraph ▸ hwell) (hgraph ▸ hl) (hgraph ▸ h')
  rw [hgraph] at hsolve' hpeek'
  have hknown : ((w.looked v prior).wrote v b).knowledge.get? v.name ≠ none := by
    rw [get?_knowledge_wrote hwell hv hm]
    exact Option.some_ne_none b
  have hsame := Graph.solve_sameBut hg hl hdials htriggers hv hm
    (isKnowledge_knowledge hwell) (hgraph ▸ isKnowledge_knowledge (hgraph ▸ hwell))
    (sameBut_wrote hwell hv prior b) hfenced hfenced' hknown hsolve hsolve' hu hk hne
  obtain ⟨c, hc⟩ := hmodel.exists_get? hu
  rw [hpeek, hpeek', Graph.valueIn_symbol hwell hu hc,
    Graph.valueIn_symbol hwell hu (hsame.trans hc)]

end

/-- **One lever does not move another.**  Let the graph have neither latches nor dials, and let what
is known have a consistent completion.  Then a reversible mutable can be written, and every other
mutable answers as before: if it is known; if both ends of the period have completions by defaults;
or if the mutable that is written is fenced before and after, as long as what is known after the
write still has a completion. -/
theorem other_levers_stay (hg : g.IsValid) (hl : g.IsLocal) (hu : g.Untriggered)
    (hd : g.dials = []) (hw : Reachable g w) (hread : w.current.Readable g) (hv : v ∈ g.declared)
    (hm : v.isMutable = true) (hr : v.isReversible = true) (b : Bool) :
    w.answer (.write v.symbol b) = .ok none ∧
      ∀ u ∈ g.declared, u.isMutable = true → u ≠ v →
        (w.current.peek u.name ≠ none ∨ w.current.Completes g ∨
          (g.Fenced w.knowledge v ∧ g.Fenced (w.next (.write v.symbol b)).knowledge v ∧
            (w.next (.write v.symbol b)).current.Readable g)) →
        (w.next (.write v.symbol b)).answer (.peek u.symbol) = w.answer (.peek u.symbol) := by
  have hwell := hg.wellFormed
  obtain rfl := hw.graph_eq hwell
  obtain ⟨M, _, hmodel, hpeek⟩ := exists_state_of_readable hwell hl hread
  obtain ⟨prior, hprior⟩ := hmodel.exists_get? hv
  have hp : w.peek v.symbol = .ok prior := by
    rw [hpeek, Graph.valueIn_symbol hwell hv hprior]
  have hfree : forbids v prior b = false := by
    rw [forbids, hr]
    rfl
  have hrun := write_run hwell hv hm (hu.triggersDependentOn hwell v.name) (Or.inl hr) hp b
  rw [hfree, if_neg Bool.false_ne_true] at hrun
  obtain ⟨hanswer, hnext⟩ := answer_write hrun
  refine ⟨hanswer, ?_⟩
  intro u hmem hk hne hcase
  rw [hnext] at hcase ⊢
  rw [(answer_peek _ _).1, (answer_peek w _).1]
  congr 1
  rcases hcase with hknown | hcompletes | ⟨hfenced, hfenced', hread'⟩
  · exact peek_wrote_of_known hg hv hmem hk hne hknown prior b
  · have haligned := hw.forall_period hwell (Period.kept_aligned hwell) w.now
    exact peek_wrote_of_completes hg hv hmem hk hne hm hl hu hd haligned hcompletes hp b
  · exact peek_wrote_of_fenced hg hv hmem hk hne hm hl hu hd hread hread' hfenced hfenced'

end World

/-! ### A cistern with a pump -/

namespace Graph

namespace Cistern

open Tank

def pump : Variable := ⟨⟨"pump", 5⟩, .mutable false true, [], []⟩

/-- The outlet is open and nothing is pumped in. -/
def sinks : Formula := .all [.value "outlet", .not (.value "pump")]

def level : Variable :=
  ⟨⟨"level", 6⟩, .derived sinks.rule, [outlet.symbol, pump.symbol], [outlet.symbol, pump.symbol]⟩

def entries : List Entry :=
  Tank.entries ++ [⟨"pump", .mutable "pump" false true, []⟩,
    ⟨"level", .derived "level" [.label "outlet", .label "pump"] sinks.rule, []⟩]

end Cistern

open Tank in
/-- The tank again, with a pump that keeps up the level. -/
def cistern : Graph :=
  ⟨[inlet, cover, outlet, spill, draft, Cistern.pump, Cistern.level], [],
    [spill, draft, Cistern.level]⟩

theorem cistern_isValid : cistern.IsValid :=
  isValid_of_made cistern Cistern.entries rfl (fun _ hv => hv) (fun _ hd => nomatch hd) rfl

theorem cistern_isLocal : cistern.IsLocal := by
  apply isLocal_of_reads
  intro v hv rule hr
  simp only [cistern, List.mem_cons, List.not_mem_nil, or_false] at hv
  rcases hv with rfl | rfl | rfl | rfl | rfl | rfl | rfl
  · cases hr
  · cases hr
  · cases hr
  · cases hr
    exact ⟨Tank.spills, rfl, by decide⟩
  · cases hr
    exact ⟨Tank.draws, rfl, by decide⟩
  · cases hr
  · cases hr
    exact ⟨Cistern.sinks, rfl, by decide⟩

theorem cistern_untriggered : cistern.Untriggered := by decide

end Graph

namespace World

/-- Under the cover there was no draft, and now the inlet is open: so the outlet must be, too. -/
def draining : World :=
  (start Graph.cistern .standard none).after [.write Graph.Tank.cover.symbol true,
    .read Graph.Tank.draft.symbol, .travel (-1), .write Graph.Tank.inlet.symbol true, .travel 0]

theorem draining_reachable : Reachable Graph.cistern draining := ⟨.standard, none, _, rfl⟩

/-- The outlet stays open when the pump is started. -/
theorem other_levers_stay_draining :
    draining.answer (.peek Graph.Tank.outlet.symbol) = .ok (some true) ∧
      (draining.next (.write Graph.Cistern.pump.symbol true)).answer
        (.peek Graph.Tank.outlet.symbol) = .ok (some true) := by
  have hbefore : draining.answer (.peek Graph.Tank.outlet.symbol) = .ok (some true) := by
    decide +kernel
  obtain ⟨_, hstay⟩ := other_levers_stay (v := Graph.Cistern.pump) Graph.cistern_isValid
    Graph.cistern_isLocal Graph.cistern_untriggered rfl draining_reachable (by decide +kernel)
    (by simp [Graph.cistern]) rfl rfl true
  refine ⟨hbefore, ?_⟩
  rw [hstay Graph.Tank.outlet (by simp [Graph.cistern]) rfl
    (fun h => nomatch congrArg Variable.name h)
    (Or.inr (Or.inr ⟨by decide +kernel, by decide +kernel, by decide +kernel⟩)), hbefore]

end World

/-! ### A formula that sees a lever it does not name -/

namespace Graph

namespace Duct

def fan : Variable := ⟨⟨"fan", 0⟩, .mutable false true, [], []⟩

def vent : Variable := ⟨⟨"vent", 1⟩, .mutable false true, [], []⟩

/-- Depends on the fan, but sees the vent as well. -/
def hums : Formula := .differ (.value "fan") (.value "vent")

def hum : Variable := ⟨⟨"hum", 2⟩, .derived hums.rule, [fan.symbol], [fan.symbol]⟩

def entries : List Entry :=
  [⟨"fan", .mutable "fan" false true, []⟩, ⟨"vent", .mutable "vent" false true, []⟩,
    ⟨"hum", .derived "hum" [.label "fan"] hums.rule, []⟩]

end Duct

open Duct in
def duct : Graph := ⟨[fan, vent, hum], [], [hum]⟩

theorem duct_isValid : duct.IsValid :=
  isValid_of_made duct Duct.entries rfl (fun _ hv => hv) (fun _ hd => nomatch hd) rfl

end Graph

namespace World

/-- In every reachable world without latches and dials in which what is known has a consistent
completion, a write of a reversible mutable leaves the answer on every other mutable, if the graph,
the worlds before and after the write and the mutable meet a condition. -/
def NeverMoves (cond : Graph → World → World → Variable → Prop) : Prop :=
  ∀ (g : Graph) (w : World) (u v : Variable) (b : Bool), g.IsValid → g.Untriggered →
    g.dials = [] → Reachable g w → w.current.Readable g → u ∈ g.declared → u.isMutable = true →
    v ∈ g.declared → v.isMutable = true → v.isReversible = true → u ≠ v →
    cond g w (w.next (.write v.symbol b)) v →
    (w.next (.write v.symbol b)).answer (.peek u.symbol) = w.answer (.peek u.symbol)

/-- The hum was not heard, and that is all that is known. -/
def humHeard : World := (start Graph.duct .standard none).next (.read Graph.Duct.hum.symbol)

/-- The level sinks, so the outlet is open; then the pump keeps it up, and the inlet is closed. -/
def pumping : World :=
  draining.after [.read Graph.Cistern.level.symbol, .write Graph.Cistern.pump.symbol true,
    .write Graph.Tank.inlet.symbol false]

theorem pumping_reachable : Reachable Graph.cistern pumping :=
  ((draining_reachable.next _).next _).next _

/-- All is seen of the tank, and under the cover there is no draft. -/
def covered : World :=
  (start Graph.cistern .standard none).after [.read Graph.Tank.spill.symbol,
    .write Graph.Tank.cover.symbol true, .read Graph.Tank.draft.symbol, .travel (-1),
    .write Graph.Tank.inlet.symbol true, .travel 0, .read Graph.Tank.outlet.symbol]

/-- One lever can move another: if it was not fenced before, since the draft that implied the outlet
is forgotten with the inlet; if it is not fenced after, since the level that was seen to sink is
known again; if a formula sees more than it says; and if the write leaves knowledge that has no
completion. -/
theorem draining_moves :
    ¬ NeverMoves (fun g _ w' v => g.IsLocal ∧ g.Fenced w'.knowledge v ∧ w'.current.Readable g) ∧
      ¬ NeverMoves (fun g w w' v => g.IsLocal ∧ g.Fenced w.knowledge v ∧ w'.current.Readable g) ∧
      ¬ NeverMoves (fun g w w' v => g.Fenced w.knowledge v ∧ g.Fenced w'.knowledge v ∧
        w'.current.Readable g) ∧
      ¬ NeverMoves (fun g w w' v => g.IsLocal ∧ g.Fenced w.knowledge v ∧
        g.Fenced w'.knowledge v) := by
  refine ⟨?_, ?_, ?_, ?_⟩
  · intro hall
    have hsame := hall Graph.cistern draining Graph.Tank.outlet Graph.Tank.inlet false
      Graph.cistern_isValid Graph.cistern_untriggered rfl draining_reachable (by decide +kernel)
      (by simp [Graph.cistern]) rfl (by simp [Graph.cistern]) rfl rfl
      (fun h => nomatch congrArg Variable.name h)
      ⟨Graph.cistern_isLocal, by decide +kernel, by decide +kernel⟩
    have hmoved : (draining.next (.write Graph.Tank.inlet.symbol false)).answer
        (.peek Graph.Tank.outlet.symbol) ≠ draining.answer (.peek Graph.Tank.outlet.symbol) := by
      decide +kernel
    exact hmoved hsame
  · intro hall
    have hsame := hall Graph.cistern pumping Graph.Tank.outlet Graph.Cistern.pump false
      Graph.cistern_isValid Graph.cistern_untriggered rfl pumping_reachable (by decide +kernel)
      (by simp [Graph.cistern]) rfl (by simp [Graph.cistern]) rfl rfl
      (fun h => nomatch congrArg Variable.name h)
      ⟨Graph.cistern_isLocal, by decide +kernel, by decide +kernel⟩
    have hmoved : (pumping.next (.write Graph.Cistern.pump.symbol false)).answer
        (.peek Graph.Tank.outlet.symbol) ≠ pumping.answer (.peek Graph.Tank.outlet.symbol) := by
      decide +kernel
    exact hmoved hsame
  · intro hall
    have hsame := hall Graph.duct humHeard Graph.Duct.fan Graph.Duct.vent true
      Graph.duct_isValid (by decide) rfl ⟨.standard, none, [.read Graph.Duct.hum.symbol], rfl⟩
      (by decide +kernel) (by simp [Graph.duct]) rfl (by simp [Graph.duct]) rfl rfl
      (fun h => nomatch congrArg Variable.name h)
      ⟨by decide +kernel, by decide +kernel, by decide +kernel⟩
    have hmoved : (humHeard.next (.write Graph.Duct.vent.symbol true)).answer
        (.peek Graph.Duct.fan.symbol) ≠ humHeard.answer (.peek Graph.Duct.fan.symbol) := by
      decide +kernel
    exact hmoved hsame
  · intro hall
    have hsame := hall Graph.cistern covered Graph.Cistern.pump Graph.Tank.cover false
      Graph.cistern_isValid Graph.cistern_untriggered rfl ⟨.standard, none, _, rfl⟩
      (by decide +kernel) (by simp [Graph.cistern]) rfl (by simp [Graph.cistern]) rfl rfl
      (fun h => nomatch congrArg Variable.name h)
      ⟨Graph.cistern_isLocal, by decide +kernel, by decide +kernel⟩
    have hmoved : (covered.next (.write Graph.Tank.cover.symbol false)).answer
        (.peek Graph.Cistern.pump.symbol) ≠ covered.answer (.peek Graph.Cistern.pump.symbol) := by
      decide +kernel
    exact hmoved hsame

end World

end Chronicle
