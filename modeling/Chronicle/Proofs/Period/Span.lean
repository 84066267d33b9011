import Chronicle.Proofs.Completion.Evaluate
import Chronicle.Proofs.Graph.Closed
import Chronicle.Proofs.Period.Ledger
import Chronicle.Proofs.Search.Solve

/-!
# The two ends of a period

`p.Spans g S E`: the state `S` completes by defaults what the period knows of its start, and `E`
what it knows now.  The two are tied by the flags: without latches, a variable that is not taken to
have changed has one value in both (`agree_of_unmodified`), since every mutable beneath it is where
it started.

So what is observed may be fixed as a start value (`Spans.observed`), and a start value comes back
into force only where it is right again (`Spans.modified`).  A write leads to another state of now,
which is what the graph evaluates to (`Spans.exists_written`).
-/

namespace Chronicle

namespace Graph

variable {g : Graph} {v : Variable} {env : Valuation}

theorem contains_set_mutable (hg : g.WellFormed) (hv : v ∈ g.declared) (hm : v.isMutable = true)
    (henv : ∀ name, env.contains name = true ↔ name ∈ g.mutables.map Variable.name) (b : Bool)
    (name : String) :
    (env.set v.name b).contains name = true ↔ name ∈ g.mutables.map Variable.name := by
  rw [Table.contains_set, Bool.or_eq_true, decide_eq_true_eq, henv]
  refine ⟨?_, Or.inr⟩
  rintro (rfl | hn)
  · exact (hg.name_mem_mutables_iff hv).mpr hm
  · exact hn

theorem evaluateOn_isModel (hg : g.WellFormed) (hc : g.Closed) (hl : g.IsLocal)
    (henv : ∀ name, env.contains name = true ↔ name ∈ g.mutables.map Variable.name)
    (hrange : ∀ d ∈ g.dials, d.InRange env) :
    ∃ state, g.evaluateOn env = .ok state ∧ state.Extends env ∧
      g.IsModel .latched .empty state := by
  obtain ⟨state, heval, hext, htotal, hholds⟩ := evaluateOn_run hg hl henv
  refine ⟨state, heval, hext, isModel_of_holds htotal (fun _ _ hn => nomatch hn) hholds ?_⟩
  intro d hd
  refine hc.inRange_congr ?_ hd (hrange d hd)
  intro v hv hm
  exact hext.get?_eq ((henv v.name).mpr ((hg.name_mem_mutables_iff hv).mpr hm))

end Graph

namespace Period

variable {g : Graph} {mode mode' : Mode} {p : Period} {v m : Variable} {b : Bool}
  {q q' S E E' env : Valuation}

theorem collect_congr {view view' : Variable → Option Bool}
    (h : ∀ v ∈ g.declared, view v = view' v) : collect g view = collect g view' := by
  unfold collect
  rw [List.filterMap_congr fun v hv => by rw [h v hv]]

theorem extends_collect (hn : g.names.Nodup) {view : Variable → Option Bool} {s : Valuation}
    (h : ∀ v ∈ g.declared, ∀ b, view v = some b → s.get? v.name = some b) :
    s.Extends (collect g view) := by
  intro name b hb
  obtain ⟨v, hv, rfl, hview⟩ := (get?_collect_eq_some_iff hn).mp hb
  exact h v hv b hview

theorem get?_startState (hn : g.names.Nodup) (hv : v ∈ g.declared) :
    (p.startState g).get? v.name = (p.record v.name).knownStart := get?_collect_name hn _ hv

theorem get?_currentState (hn : g.names.Nodup) (hv : v ∈ g.declared) :
    (p.currentState g).get? v.name = p.peek v.name := get?_collect_name hn _ hv

theorem isKnowledge_startState (hg : g.WellFormed) (p : Period) : g.IsKnowledge (p.startState g) :=
  World.isKnowledge_collect hg _

theorem isKnowledge_currentState (hg : g.WellFormed) (p : Period) :
    g.IsKnowledge (p.currentState g) := World.isKnowledge_collect hg _

/-- Two states that complete by defaults what a period knows of its start and of now. -/
structure Spans (g : Graph) (p : Period) (S E : Valuation) : Prop where
  start : g.IsCompletion .latched (p.startState g) S
  now : g.IsCompletion .latched (p.currentState g) E

/-- Both what the period knows of its start and what it knows now have a completion by defaults. -/
def Completes (g : Graph) (p : Period) : Prop :=
  g.Consistent .latched (p.startState g) ∧ g.Consistent .latched (p.currentState g)

theorem completes_iff (hg : g.WellFormed) (hl : g.IsLocal) :
    p.Completes g ↔ ∃ S E, p.Spans g S E := by
  unfold Completes
  rw [Graph.consistent_iff_exists_isCompletion hg hl (isKnowledge_startState hg p),
    Graph.consistent_iff_exists_isCompletion hg hl (isKnowledge_currentState hg p)]
  refine ⟨?_, ?_⟩
  · rintro ⟨⟨S, hS⟩, E, hE⟩
    exact ⟨S, E, hS, hE⟩
  · rintro ⟨S, E, h⟩
    exact ⟨⟨S, h.start⟩, E, h.now⟩

section

variable (hg : g.WellFormed) (hc : g.Closed) (hl : g.IsLocal) (hu : g.Untriggered)

include hg

theorem isCompletion_collect (hu : g.Untriggered) {known known' : Variable → Option Bool}
    (h : g.IsCompletion .latched (collect g known) S)
    (hsame : ∀ u ∈ g.declared, known' u = known u ∨
      known' u = some b ∧ S.get? u.name = some b) :
    g.IsCompletion .latched (collect g known') S := by
  refine Graph.isCompletion_of_extends hu h.toIsModel (extends_collect hg.nodup ?_) ?_
  · intro u hmem c hk
    rcases hsame u hmem with he | ⟨he, hS⟩
    · exact h.extends_known _ _ ((get?_collect_name hg.nodup known hmem).trans (he ▸ hk))
    · rw [hS, ← he, hk]
  · intro m hmem hm hn
    rw [get?_collect_name hg.nodup known' hmem] at hn
    rcases hsame m hmem with he | ⟨he, _⟩
    · exact h.default m hmem hm ((get?_collect_name hg.nodup known hmem).trans (he ▸ hn))
    · rw [he] at hn
      cases hn

theorem Spans.start_mutable (h : p.Spans g S E) (hv : v ∈ g.declared) (hm : v.isMutable = true) :
    S.get? v.name = some ((p.record v.name).knownStart.getD v.default) := by
  rw [h.start.get?_mutable hv hm, get?_startState hg.nodup hv]

theorem Spans.now_mutable (h : p.Spans g S E) (hv : v ∈ g.declared) (hm : v.isMutable = true) :
    E.get? v.name = some ((p.peek v.name).getD v.default) := by
  rw [h.now.get?_mutable hv hm, get?_currentState hg.nodup hv]

theorem startState_modified (hv : v ∈ g.declared) (hd : v.isDerived = false) (b : Bool) :
    (p.modified g v.name b).startState g = p.startState g := by
  refine collect_congr ?_
  intro u hmem
  rcases record_modified_cases (p := p) (b := b) hg hv hd hmem with
    ⟨_, hr⟩ | ⟨_, _, hr⟩ | ⟨_, _, hr⟩
  · rw [hr]
    rfl
  · rw [hr]
    rfl
  · rw [hr]

theorem Spans.modified_mutable (h : p.Spans g S E) (hv : v ∈ g.declared) (hm : v.isMutable = true)
    (hb : E'.get? v.name = some b)
    (hothers : ∀ m ∈ g.declared, m.isMutable = true → m ≠ v → E'.get? m.name = E.get? m.name)
    (hmem : m ∈ g.declared) (hk : m.isMutable = true) :
    E'.get? m.name = some (((p.modified g v.name b).peek m.name).getD m.default) := by
  rcases record_modified_cases (p := p) (b := b) hg hv (Variable.isDerived_of_isMutable hm) hmem
    with ⟨rfl, hr⟩ | ⟨hder, _⟩ | ⟨hne, _, hr⟩
  · rw [hb, peek, hr]
    rfl
  · rw [Variable.isDerived_of_isMutable hk] at hder
    cases hder
  · rw [hothers m hmem hk hne, h.now_mutable hg hmem hk, peek, peek, hr]

include hc hl hu

/-- **What is not taken to have changed** has one value at both ends. -/
theorem agree_of_unmodified (ha : p.Aligned g) (hS : g.IsModel mode q S)
    (hE : g.IsModel mode' q' E)
    (hstart : ∀ m ∈ g.declared, m.isMutable = true →
      S.get? m.name = some ((p.record m.name).knownStart.getD m.default))
    (hnow : ∀ m ∈ g.declared, m.isMutable = true →
      E.get? m.name = some ((p.peek m.name).getD m.default))
    (hv : v ∈ g.declared) (hf : (p.record v.name).modifiedSinceStart = false) :
    S.get? v.name = E.get? v.name := by
  cases hd : v.isDerived with
  | false =>
    have hm := hu.isMutable hv hd
    rw [hstart v hv hm, hnow v hv hm, ha.peek_eq_knownStart hv hf]
  | true =>
    refine hS.get?_eq_of_roots hg hc hl hE v hv ?_
    intro r hr hrd hroot
    have hm := hu.isMutable hr hrd
    rcases hroot with rfl | hdep
    · rw [hrd] at hd
      cases hd
    · rw [hstart r hr hm, hnow r hr hm, ha.rooted v hv hd hf r hr hm hdep]

theorem get?_eq_of_independent (hE : g.IsModel mode q E) (hE' : g.IsModel mode' q' E')
    (hothers : ∀ m ∈ g.declared, m.isMutable = true → m ≠ v → E'.get? m.name = E.get? m.name)
    {u : Variable} (hmem : u ∈ g.declared) (hne : u ≠ v)
    (hindep : u.isDerived = true → u.dependsOn v.name = false) :
    E'.get? u.name = E.get? u.name := by
  cases hud : u.isDerived with
  | false => exact hothers u hmem (hu.isMutable hmem hud) hne
  | true =>
    refine hE'.get?_eq_of_roots hg hc hl hE u hmem ?_
    intro r hr hrd hroot
    refine hothers r hr (hu.isMutable hr hrd) ?_
    rintro rfl
    rcases hroot with rfl | hdep
    · exact hne rfl
    · rw [hindep hud] at hdep
      cases hdep

/-- **An observation of the value at hand** leaves both ends as they are. -/
theorem Spans.observed (ha : p.Aligned g) (h : p.Spans g S E) (hv : v ∈ g.declared)
    (hb : E.get? v.name = some b) : (p.observed v.name b).Spans g S E := by
  have hseen : ∀ c, p.peek v.name = some c → c = b := by
    intro c hpeek
    have hE := h.now.extends_known v.name c ((get?_currentState hg.nodup hv).trans hpeek)
    exact Option.some.inj (hE.symm.trans hb)
  have hstart : ∀ u ∈ g.declared,
      ((p.observed v.name b).record u.name).knownStart = (p.record u.name).knownStart ∨
        ((p.observed v.name b).record u.name).knownStart = some b ∧ S.get? u.name = some b := by
    intro u hmem
    rw [record_observed]
    split
    next hn =>
      obtain rfl := hg.eq_of_name hv hmem hn
      rw [Record.knownStart_observed]
      cases hf : (p.record v.name).modifiedSinceStart with
      | true => exact Or.inl rfl
      | false =>
        -- Nothing has changed it, so what is seen now was so at the start.
        rw [if_neg Bool.false_ne_true, ha.startOverride_eq hv hseen hf]
        have hsame := agree_of_unmodified hg hc hl hu ha h.start.toIsModel h.now.toIsModel
          (fun m hm hk => h.start_mutable hg hm hk) (fun m hm hk => h.now_mutable hg hm hk) hv hf
        exact Or.inr ⟨rfl, hsame.trans hb⟩
    next => exact Or.inl rfl
  have hnow : ∀ u ∈ g.declared, (p.observed v.name b).peek u.name = p.peek u.name ∨
      (p.observed v.name b).peek u.name = some b ∧ E.get? u.name = some b := by
    intro u hmem
    rw [peek, record_observed]
    split
    next hn =>
      obtain rfl := hg.eq_of_name hv hmem hn
      exact Or.inr ⟨Record.peek_observed _ b, hb⟩
    next => exact Or.inl rfl
  exact ⟨isCompletion_collect hg hu h.start hstart, isCompletion_collect hg hu h.now hnow⟩

/-- **A modification** leaves the start as it is; the state that it leads to completes what is
known from then on. -/
theorem Spans.modified (ha : p.Aligned g) (h : p.Spans g S E) (hv : v ∈ g.declared)
    (hm : v.isMutable = true) (hE' : g.IsModel mode q E') (hb : E'.get? v.name = some b)
    (hothers : ∀ m ∈ g.declared, m.isMutable = true → m ≠ v → E'.get? m.name = E.get? m.name) :
    (p.modified g v.name b).Spans g S E' := by
  have hd := Variable.isDerived_of_isMutable hm
  have haligned := ha.modified hg hv hd b
  have hspans : g.IsCompletion .latched ((p.modified g v.name b).startState g) S := by
    rw [startState_modified hg hv hd b]
    exact h.start
  have hnow : ∀ m ∈ g.declared, m.isMutable = true →
      E'.get? m.name = some (((p.modified g v.name b).peek m.name).getD m.default) :=
    fun m hmem hk => h.modified_mutable hg hv hm hb hothers hmem hk
  refine ⟨hspans, Graph.isCompletion_of_extends hu hE' (extends_collect hg.nodup ?_) ?_⟩
  · intro u hmem c hknown
    cases hf : ((p.modified g v.name b).record u.name).modifiedSinceStart with
    | false =>
      -- Its start value serves, and the mutables beneath it are where they started.
      have hsame := agree_of_unmodified hg hc hl hu haligned hspans.toIsModel hE'
        (fun m hmem hk => by rw [hspans.get?_mutable hmem hk, get?_startState hg.nodup hmem])
        hnow hmem hf
      rw [haligned.peek_eq_knownStart hmem hf] at hknown
      rw [← hsame]
      exact hspans.extends_known _ _ ((get?_startState hg.nodup hmem).trans hknown)
    | true =>
      rw [peek_of_modified hf] at hknown
      rcases record_modified_cases (p := p) (b := b) hg hv hd hmem with
        ⟨rfl, hr⟩ | ⟨_, _, hr⟩ | ⟨hne, hindep, hr⟩
      · rw [hr] at hknown
        rw [hb]
        exact hknown
      · rw [hr] at hknown
        cases hknown
      · have hbefore : E.get? u.name = some c := by
          rw [hr] at hknown hf
          refine h.now.extends_known _ _ ((get?_currentState hg.nodup hmem).trans ?_)
          rw [peek_of_modified hf, hknown]
        rw [← hbefore]
        exact get?_eq_of_independent hg hc hl hu h.now.toIsModel hE' hothers hmem hne hindep
  · intro m hmem hk hn
    rw [get?_currentState hg.nodup hmem] at hn
    rw [hnow m hmem hk, hn]
    rfl

theorem Spans.written (ha : p.Aligned g) (h : p.Spans g S E) (hv : v ∈ g.declared)
    (hm : v.isMutable = true) (hE' : g.IsModel mode q E') (hb : E'.get? v.name = some b)
    (hothers : ∀ m ∈ g.declared, m.isMutable = true → m ≠ v → E'.get? m.name = E.get? m.name)
    (observe : Bool) : (p.written g observe v b).Spans g S E' := by
  have hmodified := h.modified hg hc hl hu ha hv hm hE' hb hothers
  unfold Period.written
  split
  · have haligned := ha.modified hg hv (Variable.isDerived_of_isMutable hm) b
    exact hmodified.observed hg hc hl hu haligned hv hb
  · exact hmodified

/-- **A write that keeps all dials in range leads to a state**, which is what the graph evaluates to
once the value of the variable is replaced. -/
theorem Spans.exists_written (ha : p.Aligned g) (h : p.Spans g S E) (hv : v ∈ g.declared)
    (hm : v.isMutable = true)
    (henv : ∀ name, env.contains name = true ↔ name ∈ g.mutables.map Variable.name)
    (hext : E.Extends env) (hrange : ∀ d ∈ g.dials, d.InRange (env.set v.name b))
    (observe : Bool) :
    ∃ E', g.evaluateOn (env.set v.name b) = .ok E' ∧ (p.written g observe v b).Spans g S E' := by
  obtain ⟨E', heval, hext', hmodel⟩ :=
    Graph.evaluateOn_isModel hg hc hl (Graph.contains_set_mutable hg hv hm henv b) hrange
  have hwritten : E'.get? v.name = some b := hext' _ _ (Table.get?_set_self env v.name b)
  have hothers : ∀ m ∈ g.declared, m.isMutable = true → m ≠ v →
      E'.get? m.name = E.get? m.name := by
    intro m hmem hk hne
    obtain ⟨c, hc⟩ :=
      Table.contains_iff.mp ((henv m.name).mpr ((hg.name_mem_mutables_iff hmem).mpr hk))
    have hname : v.name ≠ m.name := fun he => hne (hg.eq_of_name hmem hv he.symm)
    rw [hext _ _ hc]
    exact hext' _ _ ((Table.get?_set_of_ne env hname b).trans hc)
  exact ⟨E', heval, h.written hg hc hl hu ha hv hm hmodel hwritten hothers observe⟩

end

theorem startState_blank (g : Graph) (time : Int) : (blank time).startState g = .empty :=
  collect_eq_empty fun _ _ => rfl

theorem currentState_blank (g : Graph) (time : Int) : (blank time).currentState g = .empty :=
  collect_eq_empty fun _ _ => rfl

/-- **What the defaults evaluate to** spans every period of which nothing is known. -/
theorem exists_spans_blank (hg : g.IsValid) (hl : g.IsLocal) (hu : g.Untriggered) :
    ∃ state, g.evaluateOn g.defaults = .ok state ∧
      ∀ time, (blank time).Spans g state state := by
  have hwell := hg.wellFormed
  have hdefault : ∀ v ∈ g.declared, v.isMutable = true → g.defaults.get? v.name = some v.default :=
    fun v hv hm => Graph.get?_fill_mutable hwell hv hm rfl
  obtain ⟨state, heval, hext, hmodel⟩ := Graph.evaluateOn_isModel hwell hg.closed hl
    (Graph.contains_defaults_iff hwell) (hg.closed.inRange hdefault)
  have hempty : g.IsCompletion .latched .empty state :=
    Graph.isCompletion_of_extends hu hmodel (fun _ _ hn => nomatch hn)
      fun v hv hm _ => hext _ _ (hdefault v hv hm)
  refine ⟨state, heval, fun time => ⟨?_, ?_⟩⟩
  · rw [startState_blank]
    exact hempty
  · rw [currentState_blank]
    exact hempty

end Period

end Chronicle
