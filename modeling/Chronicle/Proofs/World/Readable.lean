import Chronicle.Proofs.Formula.Locality
import Chronicle.Proofs.World.Carry

/-!
# When everything can be read

Without latches and dials, what is known now should always be consistent.  Reads and writes keep it
so: they keep completions by defaults of both ends of the period (`completes_next`), and these are
found without a flip.  An arrival does not.  It asks whether the overrides are consistent with what
the destination knows now, and not whether they are so together with what it knows of its start.  If
what is known now then needs a flip that the start does not allow, a read fixes the flip as a start
value, and once the roots of a derived variable return to where they started, its start value comes
back and contradicts them (`tank_unreadable`).

So everything can be read as long as each call that may correct a visited period, an arrival in one
or a reconciled irreversible write, leaves all periods with completions by defaults at both ends
(`reads_succeed`).
-/

namespace Chronicle

instance {g : Graph} {mode : Mode} {q : Valuation} : Decidable (g.Consistent mode q) :=
  decidable_of_iff _ Graph.isConsistent_eq_true_iff

instance {g : Graph} {p : Period} : Decidable (p.Completes g) :=
  inferInstanceAs (Decidable (_ ∧ _))

namespace Graph

theorem IsModel.exists_environment {g : Graph} {mode : Mode} {p s : Valuation}
    (h : g.IsModel mode p s) :
    ∃ env, (∀ name, env.contains name = true ↔ name ∈ g.mutables.map Variable.name) ∧
      s.Extends env := by
  refine ⟨s.restrictedTo (g.mutables.map Variable.name), ?_, ?_⟩
  · intro name
    rw [Table.contains_iff, Valuation.get?_restrictedTo]
    refine ⟨?_, ?_⟩
    · rintro ⟨b, hb⟩
      by_contra hn
      rw [if_neg hn] at hb
      cases hb
    · intro hn
      rw [if_pos hn]
      refine Option.isSome_iff_exists.mp ((h.total name).mpr ?_)
      exact (List.filter_sublist.map Variable.name).subset hn
  · intro name b hb
    rw [Valuation.get?_restrictedTo] at hb
    split at hb
    · exact hb
    · cases hb

end Graph

namespace Period

variable {g : Graph} {p : Period} {v : Variable} {b : Bool} (hg : g.IsValid) (hl : g.IsLocal)
  (hu : g.Untriggered)

include hg hl hu

theorem Completes.observed (ha : p.Aligned g) (h : p.Completes g) (hv : v ∈ g.declared)
    (hb : ∀ E, g.IsCompletion .latched (p.currentState g) E → E.get? v.name = some b) :
    (p.observed v.name b).Completes g := by
  have hwell := hg.wellFormed
  obtain ⟨S, E, hspans⟩ := (completes_iff hwell hl).mp h
  exact (completes_iff hwell hl).mpr
    ⟨S, E, hspans.observed hwell hg.closed hl hu ha hv (hb E hspans.now)⟩

theorem Completes.written (hdials : g.dials = []) (ha : p.Aligned g) (h : p.Completes g)
    (hv : v ∈ g.declared) (hm : v.isMutable = true) (observe b : Bool) :
    (p.written g observe v b).Completes g := by
  have hwell := hg.wellFormed
  obtain ⟨S, E, hspans⟩ := (completes_iff hwell hl).mp h
  obtain ⟨env, henv, hext⟩ := hspans.now.toIsModel.exists_environment
  obtain ⟨E', _, hwritten⟩ := hspans.exists_written (b := b) hwell hg.closed hl hu ha hv hm henv
    hext (by rw [hdials]; exact nofun) observe
  exact (completes_iff hwell hl).mpr ⟨S, E', hwritten⟩

end Period

namespace World

variable {g : Graph} {w : World} {c : Call} {time : Int} {v : Variable} {b : Bool}

/-- The call may correct a period that was visited before: it is a journey to a later one, or a
write of an irreversible variable that is reconciled with one. -/
def Corrects (w : World) : Call → Prop
  | .travel time => w.now < time ∧ (w.timeline.at? time).isSome = true
  | .write s _ => w.settings.reconcileWrites = true ∧
      (∃ v ∈ w.graph.declared, v.symbol = s ∧ v.isMutable = true ∧ v.isReversible = false) ∧
      ∃ time ∈ w.timeline.times, w.now < time
  | _ => False

/-- Every call of the history that may correct a visited period leaves all periods with completions
by defaults at both ends. -/
def Tidy (w : World) : List Call → Prop
  | [] => True
  | c :: rest => (w.Corrects c → ∀ p ∈ (w.next c).timeline.periods, p.Completes w.graph) ∧
      (w.next c).Tidy rest

/-- Both ends of every period, visited or not, have completions by defaults. -/
def Completes (w : World) : Prop := ∀ time, (w.timeline.period time).Completes w.graph

theorem Completes.setPeriod (h : w.Completes) {p : Period} (hp : p.Completes w.graph) :
    (w.setPeriod p).Completes := by
  intro time
  show ((w.timeline.put p).period time).Completes w.graph
  rw [Timeline.period_put]
  split
  · exact hp
  · exact h time

theorem quiet_of_not_corrects (hv : v ∈ w.graph.declared) (hm : v.isMutable = true)
    (h : ¬ w.Corrects (.write v.symbol b)) : w.Quiet v := by
  cases hr : v.isReversible with
  | true => exact Or.inl hr
  | false =>
    cases hs : w.settings.reconcileWrites with
    | false => exact Or.inr (Or.inl hs)
    | true =>
      refine Or.inr (Or.inr ?_)
      intro time ht
      by_contra hlt
      exact h ⟨hs, ⟨v, hv, rfl, hm, hr⟩, time, ht, by omega⟩

section

variable (hg : g.IsValid) (hl : g.IsLocal) (hu : g.Untriggered)

include hg hl hu

theorem completes_blank (time : Int) : (Period.blank time).Completes g := by
  obtain ⟨state, _, hspans⟩ := Period.exists_spans_blank hg hl hu
  exact (Period.completes_iff hg.wellFormed hl).mpr ⟨state, state, hspans time⟩

theorem completes_of_periods (hw : w.graph = g) (h : ∀ p ∈ w.timeline.periods, p.Completes g) :
    w.Completes := by
  subst hw
  intro time
  unfold Timeline.period
  cases hp : w.timeline.at? time with
  | none => exact completes_blank hg hl hu time
  | some p => exact h p (List.mem_of_find?_eq_some hp)

end

theorem Completes.exists_state (h : w.Completes) (hg : w.graph.WellFormed) (hl : w.graph.IsLocal) :
    ∃ state, w.graph.IsCompletion .latched w.knowledge state ∧
      ∀ s, w.peek s = w.graph.valueIn state s := by
  obtain ⟨_, state, hspans⟩ := (Period.completes_iff hg hl).mp (h w.now)
  exact ⟨state, hspans.now, peek_of_isCompletion hg hl hspans.now⟩

/-! ### Calls that correct nothing -/

section

variable (hg : g.IsValid) (hl : g.IsLocal) (hu : g.Untriggered)

include hg hl hu

theorem Completes.observed (hw : Reachable g w) (h : w.Completes) {s : Symbol}
    (hb : w.peek s = .ok b) : (w.setPeriod (w.current.observed s.name b)).Completes := by
  have hwell := hg.wellFormed
  obtain rfl := hw.graph_eq hwell
  have haligned := hw.forall_period hwell (Period.kept_aligned hwell) w.now
  obtain ⟨v, hv, rfl, _⟩ := peek_eq_ok hb
  refine h.setPeriod ((h w.now).observed hg hl hu haligned hv ?_)
  intro E hE
  rw [peek_of_isCompletion hwell hl hE, Graph.valueIn, hwell.require_symbol hv] at hb
  exact Valuation.read_eq_ok_iff.mp hb

theorem Completes.looked (hw : Reachable g w) (h : w.Completes) (hp : w.peek v.symbol = .ok b) :
    Reachable g (w.looked v b) ∧ (w.looked v b).Completes := by
  unfold World.looked
  split
  · refine ⟨?_, h.observed hg hl hu hw hp⟩
    show Reachable g (w.setPeriod (w.current.observed v.symbol.name b))
    rw [← (answer_read hp).2]
    exact hw.next _
  · exact ⟨hw, h⟩

/-- **The first arrival in a period** leaves it with one state at both ends. -/
theorem Completes.arrived_unvisited (h : w.Completes) (hgraph : w.graph = g)
    (hnew : w.timeline.at? time = none) {merged : Valuation} {a : Arrival}
    (hm : g.merge w.leaving (w.started time) = some merged)
    (hfits : a.Fits g merged (w.timeline.period time)) :
    (w.arrived time a.overrides).Completes := by
  have hwell := hg.wellFormed
  subst hgraph
  rw [period_of_unvisited hnew] at hfits
  have hmerged : w.graph.IsKnowledge merged := Graph.isKnowledge_of_merge
    (Period.isKnowledge_endState hwell _) (Period.isKnowledge_startState hwell _) hm
  obtain ⟨S, hS⟩ := hfits.consistent
  have hcompletion := Graph.isCompletion_of_complete? hwell hl
    (hfits.flipped.isKnowledge hwell hmerged) hS
  have hsame : a.resolved = a.candidate := by
    have hexplained := hfits.explained
    generalize a.candidate = c, a.resolved = r at hexplained
    cases hexplained
    rfl
  have hspans := Arrival.spans_overridden_blank hwell time hcompletion
  rw [← hsame, ← hfits.overrides, ← period_of_unvisited hnew] at hspans
  exact h.setPeriod ((Period.completes_iff hwell hl).mpr ⟨S, S, hspans⟩)

theorem Completes.travel (hw : Reachable g w) (h : w.Completes)
    (hc : ¬ w.Corrects (.travel time)) : (w.next (.travel time)).Completes := by
  have hwell := hg.wellFormed
  obtain rfl := hw.graph_eq hwell
  rcases Int.lt_trichotomy time w.now with hlt | rfl | hlt
  · rw [(next_travel_back hlt).2]
    intro other
    show ((w.moved time).timeline.period other).Completes w.graph
    rw [period_moved]
    exact h other
  · rw [next_travel, travel_run_stayed]
    exact h
  · have hnew : w.timeline.at? time = none := by
      rw [← Option.not_isSome_iff_eq_none]
      exact fun hvisited => hc ⟨hlt, hvisited⟩
    have hrun := travel_run_forward hlt false
    rw [next_travel]
    cases hm : w.graph.merge w.leaving (w.started time) with
    | none =>
      rw [hm] at hrun
      rw [hrun]
      exact h
    | some merged =>
      rw [hm] at hrun
      dsimp only at hrun
      rcases hf : Arrival.find w.graph merged (w.timeline.period time) with e | _ | a
      · rw [hf] at hrun
        rw [hrun]
        exact h
      · rw [hf] at hrun
        rw [hrun]
        exact h
      · rw [travel_run_arrived hlt hm hf hwell]
        exact h.arrived_unvisited hg hl hu rfl hnew hm (Arrival.fits_of_find hf)

theorem Completes.canTravel (hw : Reachable g w) (h : w.Completes) (time : Int) :
    (w.next (.canTravel time)).Completes := by
  have hwell := hg.wellFormed
  obtain ⟨verdict, conflicts, hend⟩ := hw.exists_ending hg hl time
  obtain rfl := hw.graph_eq hwell
  obtain ⟨w', _, hrun, hsame, _⟩ := travel_run_of_ending hwell hend true
  obtain rfl := hsame rfl
  rw [(answer_canTravel hrun).2]
  exact h

variable (hdials : g.dials = [])

include hdials

theorem Completes.wrote (hw : Reachable g w) (h : w.Completes) (hv : v ∈ g.declared)
    (hm : v.isMutable = true) (b : Bool) : (w.wrote v b).Completes := by
  have hwell := hg.wellFormed
  obtain rfl := hw.graph_eq hwell
  have haligned := hw.forall_period hwell (Period.kept_aligned hwell) w.now
  exact h.setPeriod ((h w.now).written hg hl hu hdials haligned hv hm w.settings.observeOnWrite b)

theorem Completes.write (hw : Reachable g w) (h : w.Completes) {s : Symbol}
    (hc : ¬ w.Corrects (.write s b)) : (w.next (.write s b)).Completes := by
  have hwell := hg.wellFormed
  obtain rfl := hw.graph_eq hwell
  cases hr : w.graph.require s with
  | error e =>
    rw [(answer_write (write_run_refused s b (Or.inl hr))).2]
    exact h
  | ok v =>
    obtain ⟨hv, rfl⟩ := Graph.require_eq_ok hr
    cases hm : v.isMutable with
    | false =>
      rw [(answer_write (write_run_refused v.symbol b (Or.inr ⟨v, hr, hm, rfl⟩))).2]
      exact h
    | true =>
      obtain ⟨state, hstate, hpeek⟩ := h.exists_state hwell hl
      obtain ⟨prior, hprior⟩ := hstate.exists_get? hv
      have hp : w.peek v.symbol = .ok prior :=
        (hpeek v.symbol).trans (Graph.valueIn_symbol hwell hv hprior)
      have hrun := write_run hwell hv hm (hu.triggersDependentOn hwell v.name)
        (quiet_of_not_corrects hv hm hc) hp b
      obtain ⟨hlooked, hcompletes⟩ := h.looked hg hl hu hw hp
      cases hf : forbids v prior b with
      | true =>
        rw [hf, if_pos rfl] at hrun
        rw [(answer_write hrun).2]
        exact hcompletes
      | false =>
        rw [hf, if_neg Bool.false_ne_true] at hrun
        rw [(answer_write hrun).2]
        exact hcompletes.wrote hg hl hu hdials hlooked hv hm b

/-- **A call that corrects nothing** leaves all periods with completions by defaults. -/
theorem completes_next (hw : Reachable g w) (h : w.Completes) (hc : ¬ w.Corrects c) :
    (w.next c).Completes := by
  cases c with
  | peek s =>
    rw [(answer_peek w s).2]
    exact h
  | read s =>
    cases hp : w.peek s with
    | error e =>
      rw [(answer_read_error hp).2]
      exact h
    | ok b =>
      rw [(answer_read hp).2]
      exact h.observed hg hl hu hw hp
  | write s b => exact h.write hg hl hu hdials hw hc
  | travel time => exact h.travel hg hl hu hw hc
  | canTravel time => exact h.canTravel hg hl hu hw time
  | assign field d => exact h

theorem completes_after {calls : List Call} (hw : Reachable g w) (h : w.Completes)
    (ht : w.Tidy calls) : (w.after calls).Completes := by
  induction calls generalizing w with
  | nil => exact h
  | cons c rest ih =>
    have hwell := hg.wellFormed
    refine ih (hw.next c) ?_ ht.2
    by_cases hc : w.Corrects c
    · refine completes_of_periods hg hl hu ((hw.next c).graph_eq hwell) ?_
      rw [← hw.graph_eq hwell]
      exact ht.1 hc
    · exact completes_next hg hl hu hdials hw h hc

/-- **Without latches and dials everything can be read after every tidy history**: what is known is
consistent as it stands, and one state of the world answers every peek and every read. -/
theorem reads_succeed (settings : Settings) (time? : Option Int) {calls : List Call}
    (ht : (start g settings time?).Tidy calls) :
    (∃ q, g.findConsistent .latched ((start g settings time?).after calls).knowledge =
        .ok (some q)) ∧
      ∃ state, g.IsModel .latched ((start g settings time?).after calls).knowledge state ∧
        ∀ s, ((start g settings time?).after calls).answer (.peek s) = some <$> g.valueIn state s ∧
          ((start g settings time?).after calls).answer (.read s) = some <$> g.valueIn state s := by
  have hwell := hg.wellFormed
  have hstart : (start g settings time?).Completes := by
    intro time
    rw [period_start]
    exact completes_blank hg hl hu time
  have hcompletes : ((start g settings time?).after calls).Completes :=
    completes_after hg hl hu hdials ⟨settings, time?, [], rfl⟩ hstart ht
  have hgraph : ((start g settings time?).after calls).graph = g :=
    Reachable.graph_eq hwell ⟨settings, time?, calls, rfl⟩
  generalize (start g settings time?).after calls = w at hcompletes hgraph ⊢
  subst hgraph
  obtain ⟨state, hstate, hpeek⟩ := hcompletes.exists_state hwell hl
  refine ⟨⟨_, Graph.findConsistent_self (hcompletes w.now).2⟩, state, hstate.toIsModel, ?_⟩
  intro s
  refine ⟨?_, ?_⟩
  · rw [(answer_peek w s).1, hpeek s]
  · rw [← hpeek s]
    cases hp : w.peek s with
    | error e => exact (answer_read_error hp).1
    | ok b => exact (answer_read hp).1

end

end World

/-! ### A covered tank -/

namespace Graph

namespace Tank

def inlet : Variable := ⟨⟨"inlet", 0⟩, .mutable false true, [], []⟩

def cover : Variable := ⟨⟨"cover", 1⟩, .mutable false true, [], []⟩

def outlet : Variable := ⟨⟨"outlet", 2⟩, .mutable false true, [], []⟩

/-- The outlet is open and nothing covers the tank. -/
def spills : Formula := .all [.value "outlet", .not (.value "cover")]

/-- Under the cover one end is open and the other is not. -/
def draws : Formula := .all [.value "cover", .differ (.value "inlet") (.value "outlet")]

def spill : Variable :=
  ⟨⟨"spill", 3⟩, .derived spills.rule, [cover.symbol, outlet.symbol],
    [cover.symbol, outlet.symbol]⟩

def draft : Variable :=
  ⟨⟨"draft", 4⟩, .derived draws.rule, [inlet.symbol, cover.symbol, outlet.symbol],
    [inlet.symbol, cover.symbol, outlet.symbol]⟩

def entries : List Entry :=
  [⟨"inlet", .mutable "inlet" false true, []⟩, ⟨"cover", .mutable "cover" false true, []⟩,
    ⟨"outlet", .mutable "outlet" false true, []⟩,
    ⟨"spill", .derived "spill" [.label "cover", .label "outlet"] spills.rule, []⟩,
    ⟨"draft", .derived "draft" [.label "inlet", .label "cover", .label "outlet"] draws.rule, []⟩]

/-- The cover is put on, the inlet is opened one tick before, and then the draft is felt. -/
def airing : List Call :=
  [.write cover.symbol true, .travel (-1), .write inlet.symbol true, .travel 0, .read draft.symbol]

/-- Nothing spills, and under the cover there is no draft; the inlet is opened one tick before, so
back under the cover the outlet must be open too; and then the cover is taken off again. -/
def uncovering : List Call :=
  [.read spill.symbol, .write cover.symbol true, .read draft.symbol, .travel (-1),
    .write inlet.symbol true, .travel 0, .read outlet.symbol, .write cover.symbol false]

end Tank

open Tank in
def tank : Graph := ⟨[inlet, cover, outlet, spill, draft], [], [spill, draft]⟩

theorem tank_isValid : tank.IsValid :=
  isValid_of_made tank Tank.entries rfl (fun _ hv => hv) (fun _ hd => nomatch hd) rfl

theorem tank_isLocal : tank.IsLocal := by
  apply isLocal_of_reads
  intro v hv rule hr
  simp only [tank, List.mem_cons, List.not_mem_nil, or_false] at hv
  rcases hv with rfl | rfl | rfl | rfl | rfl
  · cases hr
  · cases hr
  · cases hr
  · cases hr
    exact ⟨Tank.spills, rfl, by decide⟩
  · cases hr
    exact ⟨Tank.draws, rfl, by decide⟩

theorem tank_untriggered : tank.Untriggered := by decide

end Graph

namespace World

/-- The draft is felt after an arrival in a visited period. -/
theorem reads_succeed_tank :
    (start Graph.tank .standard none).Tidy Graph.Tank.airing ∧
      ∃ b, ((start Graph.tank .standard none).after Graph.Tank.airing).answer
        (.peek Graph.Tank.draft.symbol) = .ok (some b) := by
  have htidy : (start Graph.tank .standard none).Tidy Graph.Tank.airing := by
    refine ⟨?_, ?_, ?_, ?_, ?_, trivial⟩ <;> exact fun _ => by decide +kernel
  obtain ⟨_, state, hmodel, hanswers⟩ := reads_succeed Graph.tank_isValid Graph.tank_isLocal
    Graph.tank_untriggered rfl .standard none htidy
  have hdraft : Graph.Tank.draft ∈ Graph.tank.declared := by simp [Graph.tank]
  obtain ⟨b, hb⟩ := Option.isSome_iff_exists.mp
    ((hmodel.total "draft").mpr (List.mem_map_of_mem hdraft))
  refine ⟨htidy, b, ?_⟩
  rw [(hanswers _).1, Graph.valueIn_symbol Graph.tank_isValid.wellFormed hdraft hb]
  rfl

/-- Not everything can be read after every history, though there are no latches and no dials. -/
theorem tank_unreadable :
    ¬ ∀ (g : Graph) (calls : List Call) (s : Symbol) (time : Int) (known : String), g.IsValid →
      g.IsLocal → g.Untriggered → g.dials = [] → (∀ c ∈ calls, ∀ field d, c ≠ .assign field d) →
      ((start g .standard none).after calls).answer (.peek s) ≠
        .error (.noCompletion time known) := by
  intro hall
  refine hall Graph.tank Graph.Tank.uncovering Graph.Tank.draft.symbol 0
    "\x7binlet=True, cover=False, outlet=True, spill=False\x7d" Graph.tank_isValid
    Graph.tank_isLocal Graph.tank_untriggered rfl ?_ ?_
  · simp [Graph.Tank.uncovering]
  · decide +kernel

end World

end Chronicle
