import Chronicle.Proofs.Completion.Graft
import Chronicle.Proofs.Period.Leaving
import Chronicle.Proofs.World.Arrive
import Chronicle.Proofs.World.Reconcile

/-!
# Periods that can be reconciled

A reconciliation looks for a history of what leaves the present and of what the target started from,
and checks it on all that the target knows.  But it writes less than it has checked: only
corrections of mutables, and of these only what is open.  And it does not look again at what stays
behind in the present.

Both periods stay readable if what they know rests on nothing that makes the difference
(`Reconcilable`): a value that stays behind, or that depends on a latch which only one of the two
periods knows to have fired, has to be known down to its mutables, and no firing of the target may
hide a mutable that the present knows.  Then a model of the history can be grafted on what is known
(`exists_model_source`, `exists_model_target`), and a correction keeps the two reconcilable
(`Reconcilable.corrected`).
-/

namespace Chronicle

namespace Arrival

instance decidableShows (g : Graph) (a : Antecedent) (name : String) :
    Decidable (Shows g a name) :=
  match h : g.get a.trigger with
  | .ok t =>
    decidable_of_iff (t.name = name ∨ a.recorded.contains name = true ∨
        name ∈ (g.relevantTo t).map Variable.name)
      ⟨fun ht => ⟨t, h, ht⟩, fun ⟨t', ht', hs⟩ => by
        obtain rfl : t = t' := Except.ok.inj (h.symm.trans ht')
        exact hs⟩
  | .error e => isFalse fun ⟨t, ht, _⟩ => by
      rw [h] at ht
      cases ht

end Arrival

namespace Period

variable {g : Graph} {p q p' q' : Period} {v u : Variable} {merged M R o : Valuation} {a : Arrival}

/-- What is known in the period has a consistent completion. -/
def Readable (g : Graph) (p : Period) : Prop :=
  ∃ s, g.findConsistent .latched (p.currentState g) = .ok (some s)

instance decidableReadable (g : Graph) (p : Period) : Decidable (p.Readable g) :=
  match h : g.findConsistent .latched (p.currentState g) with
  | .ok (some s) => isTrue ⟨s, h⟩
  | .ok none => isFalse fun ⟨s, hs⟩ => by
      rw [h] at hs
      cases hs
  | .error e => isFalse fun ⟨s, hs⟩ => by
      rw [h] at hs
      cases hs

/-- Every mutable that the variable depends on is known. -/
def Rooted (g : Graph) (p : Period) (u : Variable) : Prop :=
  ∀ m ∈ g.declared, m.isMutable = true → u.dependsOn m.name = true → p.peek m.name ≠ none

instance decidableRooted (g : Graph) (p : Period) (u : Variable) : Decidable (p.Rooted g u) :=
  inferInstanceAs (Decidable (∀ m ∈ g.declared, m.isMutable = true → u.dependsOn m.name = true →
    p.peek m.name ≠ none))

/-- The variable depends on a latch of which only the later period `q` knows that it had fired. -/
def RestsOnLater (g : Graph) (p q : Period) (u : Variable) : Prop :=
  ∃ t ∈ g.declared, t.isTriggered = true ∧ u.dependsOn t.name = true ∧ p.peek t.name = none ∧
    (q.record t.name).knownStart = some true

instance decidableRestsOnLater (g : Graph) (p q : Period) (u : Variable) :
    Decidable (p.RestsOnLater g q u) :=
  inferInstanceAs (Decidable (∃ t ∈ g.declared, t.isTriggered = true ∧ u.dependsOn t.name = true ∧
    p.peek t.name = none ∧ (q.record t.name).knownStart = some true))

/-- The variable depends on a latch that leaves the earlier period `p`, and of which only that
period knows that it has fired. -/
def RestsOnEarlier (g : Graph) (p q : Period) (u : Variable) : Prop :=
  ∃ t ∈ g.declared, t.isTriggered = true ∧ u.dependsOn t.name = true ∧ g.carries t = true ∧
    p.peek t.name = some true ∧ q.canOverride t.name = true

instance decidableRestsOnEarlier (g : Graph) (p q : Period) (u : Variable) :
    Decidable (p.RestsOnEarlier g q u) :=
  inferInstanceAs (Decidable (∃ t ∈ g.declared, t.isTriggered = true ∧ u.dependsOn t.name = true ∧
    g.carries t = true ∧ p.peek t.name = some true ∧ q.canOverride t.name = true))

/-- What is known in the present `p` and in a later period `q` survives a reconciliation. -/
structure Reconcilable (g : Graph) (p q : Period) : Prop where
  /-- No firing of the later period hides a mutable that the present knows at its default. -/
  shown : ∀ d ∈ q.antecedentList, ∀ m ∈ g.declared, m.isMutable = true →
    p.peek m.name = some m.default → Arrival.Shows g d m.name
  /-- What the present knows leaves it and rests on no later firing, or else it is known down to its
  mutables. -/
  here : ∀ u ∈ g.declared, u.isMutable = false → p.peek u.name ≠ none →
    (g.carries u = true ∧ ¬ p.RestsOnLater g q u) ∨ p.Rooted g u
  /-- What the later period knows rests on no earlier firing, or else it is known down to its
  mutables. -/
  there : ∀ u ∈ g.declared, u.isMutable = false → q.peek u.name ≠ none →
    ¬ p.RestsOnEarlier g q u ∨ q.Rooted g u

instance decidableReconcilable (g : Graph) (p q : Period) : Decidable (p.Reconcilable g q) :=
  decidable_of_iff
    ((∀ d ∈ q.antecedentList, ∀ m ∈ g.declared, m.isMutable = true →
        p.peek m.name = some m.default → Arrival.Shows g d m.name) ∧
      (∀ u ∈ g.declared, u.isMutable = false → p.peek u.name ≠ none →
        (g.carries u = true ∧ ¬ p.RestsOnLater g q u) ∨ p.Rooted g u) ∧
      ∀ u ∈ g.declared, u.isMutable = false → q.peek u.name ≠ none →
        ¬ p.RestsOnEarlier g q u ∨ q.Rooted g u)
    ⟨fun h => ⟨h.1, h.2.1, h.2.2⟩, fun h => ⟨h.shown, h.here, h.there⟩⟩

theorem isKnowledge_carriedState (hg : g.WellFormed) (p : Period) :
    g.IsKnowledge (p.carriedState g) := World.isKnowledge_collect hg _

theorem get?_carriedState (hg : g.WellFormed) (hv : v ∈ g.declared) :
    (p.carriedState g).get? v.name = if g.carries v then p.peek v.name else none :=
  get?_collect_name hg.nodup _ hv

/-! ### Without latches -/

theorem reconcilable_of_untriggered (hu : g.Untriggered) (hq : q.FiringsDeclared g) :
    p.Reconcilable g q where
  shown := by
    intro d hd
    obtain ⟨t, ht, hk, _⟩ := hq d hd
    rw [hu t ht] at hk
    cases hk
  here := by
    intro u hmem _ _
    refine Or.inl ⟨Graph.carries_iff.mpr ⟨?_, ?_⟩, ?_⟩
    · rw [Variable.isTransient, hu u hmem, Bool.false_and]
    · intro w hw _
      rw [Variable.isTransient, hu w hw, Bool.false_and]
    · rintro ⟨t, ht, hk, _⟩
      rw [hu t ht] at hk
      cases hk
  there := by
    intro u _ _ _
    refine Or.inl ?_
    rintro ⟨t, ht, hk, _⟩
    rw [hu t ht] at hk
    cases hk

theorem corrected_empty (p : Period) : p.Corrected g p .empty := by
  refine ⟨rfl, ?_, ?_⟩
  · intro name hn
    cases hn
  · intro name b hb
    cases hb

section

variable (hg : g.WellFormed)

include hg

theorem Rooted.corrected (h : p.Rooted g u) (hp : p.Aligned g) (hc : p.Corrected g p' o) :
    p'.Rooted g u := by
  intro m hm hk hd hn
  rw [hc.peek_eq hg hp hm, Option.or_eq_none_iff] at hn
  exact h m hm hk hd hn.1

/-- **A correction keeps two periods reconcilable**: it adds mutables, away from their defaults. -/
theorem Reconcilable.corrected {o o' : Valuation} (h : p.Reconcilable g q) (hp : p.Aligned g)
    (hq : q.Aligned g) (hc : p.Corrected g p' o) (hc' : q.Corrected g q' o') :
    p'.Reconcilable g q' where
  shown := by
    intro d hd m hm hk hpeek
    rw [hc'.antecedents] at hd
    refine h.shown d hd m hm hk ?_
    rw [hc.peek_eq hg hp hm, Option.or_eq_some_iff] at hpeek
    rcases hpeek with hpeek | ⟨_, hpeek⟩
    · exact hpeek
    · obtain ⟨m', hm', he, _, hdefault⟩ := hc.mutables _ _ hpeek
      rw [hg.eq_of_name hm' hm he] at hdefault
      simp at hdefault
  here := by
    intro u hu hm hknown
    unfold peek at hknown
    rw [hc.record_eq hg hu hm] at hknown
    refine (h.here u hu hm hknown).imp ?_ (fun hr => hr.corrected hg hp hc)
    rintro ⟨hcarries, hlater⟩
    refine ⟨hcarries, ?_⟩
    rintro ⟨t, ht, hk, hd, hpeek, hstart⟩
    have htm := Variable.isMutable_of_isTriggered hk
    unfold peek at hpeek
    rw [hc.record_eq hg ht htm] at hpeek
    rw [hc'.record_eq hg ht htm] at hstart
    exact hlater ⟨t, ht, hk, hd, hpeek, hstart⟩
  there := by
    intro u hu hm hknown
    unfold peek at hknown
    rw [hc'.record_eq hg hu hm] at hknown
    refine (h.there u hu hm hknown).imp ?_ (fun hr => hr.corrected hg hq hc')
    rintro hearlier ⟨t, ht, hk, hd, hcarries, hpeek, hopen⟩
    have htm := Variable.isMutable_of_isTriggered hk
    unfold peek at hpeek
    rw [hc.record_eq hg ht htm] at hpeek
    rw [canOverride, hc'.record_eq hg ht htm] at hopen
    exact hearlier ⟨t, ht, hk, hd, hcarries, hpeek, hopen⟩

theorem Corrected.currentState_eq (hc : p.Corrected g p' o) (hv : v ∈ g.declared)
    (hm : v.isMutable = false) : (p'.currentState g).get? v.name = p.peek v.name := by
  rw [get?_currentState hg.nodup hv, peek, hc.record_eq hg hv hm, peek]

/-- What is known down to its mutables is grounded in any model of what was known, and that has the
mutables of every state that knows them. -/
theorem Rooted.exists_grounds (h : p.Rooted g u) (hM : g.IsModel .latched (p.currentState g) M)
    (hc : p.Corrected g p' o)
    (hR : ∀ m ∈ g.declared, m.isMutable = true → ∀ b, p.peek m.name = some b →
      R.get? m.name = some b) :
    ∃ X, g.Grounds (p'.currentState g) X u ∧ ∀ m ∈ g.declared, m.isMutable = true →
      u.dependsOn m.name = true → X.get? m.name = R.get? m.name := by
  refine ⟨M, hM.grounds ?_, ?_⟩
  · intro t ht hm _
    rw [hc.currentState_eq hg ht hm, get?_currentState hg.nodup ht]
    exact Or.inl rfl
  · intro m hmem hk hd
    obtain ⟨c, hpeek⟩ := Option.ne_none_iff_exists'.mp (h m hmem hk hd)
    rw [hR m hmem hk c hpeek]
    exact hM.extends_known _ _ ((get?_currentState hg.nodup hmem).trans hpeek)

/-! ### What the history grounds -/

section

variable (hm : g.merge (p.carriedState g) (q.startState g) = some merged)
  (ha : a.Fits g merged q)

include hm ha

/-- What leaves the present and rests on no later firing is grounded in the history. -/
theorem grounds_source (hv : g.IsValid) (hR : g.IsModel .latched a.resolved R)
    (hc : p.Corrected g p' o) (hu : u ∈ g.declared) (hknown : p.peek u.name ≠ none)
    (hcarries : g.carries u = true) (hlater : ¬ p.RestsOnLater g q u) :
    g.Grounds (p'.currentState g) R u := by
  obtain ⟨hextends, _⟩ := Graph.merge_extends (isKnowledge_carriedState hg p) hm
  refine hR.grounds ?_
  intro t ht htm htu
  rw [hc.currentState_eq hg ht htm, ha.get?_resolved_of_not_mutable hg ht htm]
  have htcarries : g.carries t = true := by
    rcases htu with rfl | htu
    · exact hcarries
    · exact hv.closed.carries_of_dependsOn hu ht hcarries htu
  cases hpeek : p.peek t.name with
  | some c =>
    refine Or.inl (hextends _ _ ?_).symm
    rw [get?_carriedState hg ht, if_pos htcarries, hpeek]
  | none =>
    refine Or.inr ⟨rfl, ?_⟩
    intro hk hmerged
    rcases htu with rfl | htu
    · exact hknown hpeek
    · rcases Graph.get?_merge_cases hm hmerged with hpast | hstart
      · rw [get?_carriedState hg ht, if_pos htcarries, hpeek] at hpast
        cases hpast
      · rw [get?_startState hg.nodup ht] at hstart
        exact hlater ⟨t, ht, hk, htu, hpeek, hstart⟩

/-- What the target knows and rests on no earlier firing is grounded in what the history was checked
on: what the target knows, and all overrides. -/
theorem grounds_target
    (hR : g.IsModel .latched ((q.currentState g).update a.overrides.entries) R)
    (hc : q.Corrected g q' o) (hknown : q.peek u.name ≠ none)
    (hearlier : ¬ p.RestsOnEarlier g q u) : g.Grounds (q'.currentState g) R u := by
  refine hR.grounds ?_
  intro t ht htm htu
  rw [hc.currentState_eq hg ht htm, Table.get?_update_entries, get?_currentState hg.nodup ht]
  cases ho : a.overrides.get? t.name with
  | none => exact Or.inl rfl
  | some c =>
    -- It was not known, so it is an open latch that has fired in the present.
    obtain ⟨t', ht', he, hopen, hresolved, hnews⟩ :=
      Arrival.startOverrides_eq_some hg (ha.overrides ▸ ho)
    obtain rfl := hg.eq_of_name ht' ht he
    refine Or.inr ⟨peek_of_canOverride hopen, ?_⟩
    intro hk hfired
    rw [Option.some_or] at hfired
    cases hfired
    rcases htu with rfl | htu
    · exact hknown (peek_of_canOverride hopen)
    · rw [ha.get?_resolved_of_not_mutable hg ht htm, Arrival.get?_merged hg hm ht hopen,
        get?_carriedState hg ht] at hresolved
      split at hresolved
      next hcarries => exact hearlier ⟨t', ht, hk, htu, hcarries, hresolved, hopen⟩
      next => cases hresolved

end

variable (hl : g.IsLocal)

include hl

theorem readable_iff : p.Readable g ↔ ∃ M, g.IsModel .latched (p.currentState g) M :=
  Graph.exists_findConsistent_iff hg hl (isKnowledge_currentState hg p)

/-! ### The two periods -/

section

variable (hv : g.IsValid)
  (hm : g.merge (p.carriedState g) (q.startState g) = some merged) (ha : a.Fits g merged q)

include hv hm ha

/-- **The present stays readable.** -/
theorem exists_model_source (hrec : p.Reconcilable g q) (hp : p.Aligned g)
    (hread : ∃ M, g.IsModel .latched (p.currentState g) M)
    (hc : p.Corrected g p' ((a.corrections merged).filter p.canOverride)) :
    ∃ M, g.IsModel .latched (p'.currentState g) M := by
  obtain ⟨M, hM⟩ := hread
  have hcarried := isKnowledge_carriedState hg p
  obtain ⟨hextends, _⟩ := Graph.merge_extends hcarried hm
  obtain ⟨R, hR⟩ := ha.exists_model_resolved hg hl
    (Graph.isKnowledge_of_merge hcarried (isKnowledge_startState hg q) hm)
  -- The history has the mutables that the present knows, and the corrections.
  have hmutable : ∀ m ∈ g.declared, m.isMutable = true → ∀ b, p.peek m.name = some b →
      R.get? m.name = some b := by
    intro m hmem hk b hb
    refine hR.extends_known _ _ (ha.resolved_of_known hg (hextends _ _ ?_) ?_)
    · rw [get?_carriedState hg hmem, if_pos (hv.carries_mutable hmem hk), hb]
    · intro d hd m' hm' _ he hdefault
      obtain rfl := hg.eq_of_name hm' hmem he
      exact hrec.shown d hd m' hmem hk (hdefault ▸ hb)
  refine Graph.exists_isModel_graft hg hl hv.closed hR (isKnowledge_currentState hg p') ?_ ?_
  · intro m hmem hk b hb
    rw [get?_currentState hg.nodup hmem, hc.peek_eq hg hp hmem, Option.or_eq_some_iff] at hb
    rcases hb with hb | ⟨_, hb⟩
    · exact hmutable m hmem hk b hb
    · rw [Table.get?_filter] at hb
      split at hb
      · exact hR.extends_known _ _ (ha.corrections_eq_some hg hb).2.1
      · cases hb
  · intro u hu hnot b hb
    rw [hc.currentState_eq hg hu hnot] at hb
    have hknown : p.peek u.name ≠ none := by
      rw [hb]
      exact Option.some_ne_none b
    rcases hrec.here u hu hnot hknown with ⟨hcarries, hlater⟩ | hrooted
    · exact ⟨R, grounds_source hg hm ha hv hR hc hu hknown hcarries hlater, fun _ _ _ _ => rfl⟩
    · exact hrooted.exists_grounds hg hM hc hmutable

/-- **The target stays readable.** -/
theorem exists_model_target (hrec : p.Reconcilable g q) (hq : q.Aligned g)
    (hread : ∃ M, g.IsModel .latched (q.currentState g) M)
    (hc : q.Corrected g q' (Arrival.startOverrides g q (a.corrections merged))) :
    ∃ M, g.IsModel .latched (q'.currentState g) M := by
  obtain ⟨M, hM⟩ := hread
  have hjoint : g.IsKnowledge ((q.currentState g).update a.overrides.entries) := by
    rw [ha.overrides]
    have hstart := Arrival.isKnowledge_startOverrides hg q a.resolved
    exact (isKnowledge_currentState hg q).update hstart
  obtain ⟨R, hR⟩ := (Graph.solvable_iff hg hl hjoint).mp ha.known
  -- It has the mutables that the target knows, and the overrides.
  have hmutable : ∀ m ∈ g.declared, m.isMutable = true → ∀ b, q.peek m.name = some b →
      R.get? m.name = some b := by
    intro m hmem _ b hb
    refine hR.extends_known _ _ ?_
    rw [Table.get?_update_entries, get?_currentState hg.nodup hmem]
    cases ho : a.overrides.get? m.name with
    | none => rw [Option.none_or, hb]
    | some c =>
      have hopen := ha.accepts hg m.name (Table.contains_iff.mpr ⟨c, ho⟩)
      rw [peek_of_canOverride hopen] at hb
      cases hb
  refine Graph.exists_isModel_graft hg hl hv.closed hR (isKnowledge_currentState hg q') ?_ ?_
  · intro m hmem hk b hb
    rw [get?_currentState hg.nodup hmem, hc.peek_eq hg hq hmem, Option.or_eq_some_iff] at hb
    rcases hb with hb | ⟨_, hb⟩
    · exact hmutable m hmem hk b hb
    · obtain ⟨m', hm', he, hopen, hcorrection, hnews⟩ := Arrival.startOverrides_eq_some hg hb
      obtain rfl := hg.eq_of_name hm' hmem he
      refine hR.extends_known _ _ ?_
      rw [Table.get?_update_entries, ha.overrides, Arrival.get?_startOverrides hg hmem,
        if_pos hopen, (ha.corrections_eq_some hg hcorrection).2.1]
      simp [hnews]
  · intro u hu hnot b hb
    rw [hc.currentState_eq hg hu hnot] at hb
    have hknown : q.peek u.name ≠ none := by
      rw [hb]
      exact Option.some_ne_none b
    rcases hrec.there u hu hnot hknown with hearlier | hrooted
    · exact ⟨R, grounds_target hg hm ha hR hc hknown hearlier, fun _ _ _ _ => rfl⟩
    · exact hrooted.exists_grounds hg hM hc hmutable

end

theorem readable_blank (hv : g.IsValid) (time : Int) : (blank time).Readable g := by
  have hdefault : ∀ v ∈ g.declared, v.isMutable = true → g.defaults.get? v.name = some v.default :=
    fun v hv hm => Graph.get?_fill_mutable hg hv hm rfl
  obtain ⟨state, _, _, hmodel⟩ := Graph.evaluateOn_isModel hg hv.closed hl
    (Graph.contains_defaults_iff hg) (hv.closed.inRange hdefault)
  refine (readable_iff hg hl).mpr ⟨state, ?_⟩
  rw [currentState_blank]
  exact hmodel

end

end Period

end Chronicle
