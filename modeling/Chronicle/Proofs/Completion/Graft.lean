import Chronicle.Proofs.Completion.Evaluate
import Chronicle.Proofs.Graph.Closed

/-!
# Grafted models

Two states of a graph may each be right about something that is known.  To join them, take the
mutables from one, the latches as they are recorded, and evaluate the rest.  The state that comes
out agrees with any state that has the same mutables below a variable and treats what is between as
the knowledge asks (`Grounds`, `Graft.get?_eq`).  So if every recorded value is grounded in such a
state, but for latches recorded true, the graft is a model (`Graft.isModel`).
-/

namespace Chronicle.Graph

variable {g : Graph} {K L R X N : Valuation} {u v : Variable}

/-- Of the variable and what it depends on, the state is as a model of the knowledge would be. -/
def Grounds (g : Graph) (K X : Valuation) (u : Variable) : Prop :=
  ∀ t ∈ g.declared, t.isMutable = false → (t = u ∨ u.dependsOn t.name = true) →
    t.Obeys .latched K X ∧ ∀ b, K.get? t.name = some b → X.get? t.name = some b

/-- **A model of other knowledge grounds a variable** if on the variable and below it the knowledge
is the same, but for what may be forgotten. -/
theorem IsModel.grounds (h : g.IsModel .latched L X)
    (hsame : ∀ t ∈ g.declared, t.isMutable = false → (t = u ∨ u.dependsOn t.name = true) →
      K.get? t.name = L.get? t.name ∨
        (K.get? t.name = none ∧ (t.isTriggered = true → L.get? t.name ≠ some true))) :
    g.Grounds K X u := by
  intro t ht hm htu
  have hknown : ∀ b, K.get? t.name = some b → X.get? t.name = some b := by
    intro b hb
    rcases hsame t ht hm htu with hKL | ⟨hK, _⟩
    · exact h.extends_known _ _ (hKL ▸ hb)
    · rw [hK] at hb
      cases hb
  refine ⟨(h.obeys ht hm).transfer (h.extends_known t.name) hknown ?_, hknown⟩
  intro _ hk htrue
  rcases hsame t ht hm htu with hKL | ⟨_, hlatch⟩
  · exact Table.contains_iff.mpr ⟨true, hKL.trans htrue⟩
  · exact absurd htrue (hlatch hk)

theorem Grounds.of_dependsOn (hc : g.Closed) (h : g.Grounds K X u) (hu : u ∈ g.declared)
    (hv : v ∈ g.declared) (hd : u.dependsOn v.name = true) : g.Grounds K X v := by
  intro t ht hm htv
  exact h t ht hm (Or.inr (hc.dependsOn_through hu hv hd htv))

/-- A whole state with the mutables of another and the recorded latches, in which every other rule
holds. -/
structure Graft (g : Graph) (K R N : Valuation) : Prop where
  total : ∀ name, N.contains name = true ↔ name ∈ g.names
  mutables : ∀ m ∈ g.declared, m.isMutable = true → N.get? m.name = R.get? m.name
  latches : ∀ t ∈ g.declared, t.isTriggered = true → ∀ b, K.get? t.name = some b →
    N.get? t.name = some b
  holds : ∀ v ∈ g.declared, v.isMutable = false →
    (v.isTriggered = true → K.get? v.name = none) → v.Holds N

section

variable (hg : g.WellFormed) (hl : g.IsLocal)

include hg hl

theorem exists_graft (K : Valuation) (hR : g.IsModel .latched L R) : ∃ N, g.Graft K R N := by
  -- What is not evaluated: the mutables, and the latches that are recorded.
  let view : Variable → Option Bool := fun v =>
    if v.isMutable then R.get? v.name else if v.isTriggered then K.get? v.name else none
  have hview : ∀ v ∈ g.declared, (Period.collect g view).get? v.name = view v :=
    fun v hv => Period.get?_collect_name hg.nodup view hv
  obtain ⟨N, hext, htotal, hholds⟩ := exists_extension (s := Period.collect g view) hg hl
    (by
      intro name hn
      obtain ⟨b, hb⟩ := Table.contains_iff.mp hn
      obtain ⟨v, hv, rfl, _⟩ := (Period.get?_collect_eq_some_iff hg.nodup).mp hb
      exact List.mem_map_of_mem hv)
    (by
      intro m hm hk
      obtain ⟨b, hb⟩ := hR.exists_get? hm
      refine Table.contains_iff.mpr ⟨b, ?_⟩
      rw [hview m hm]
      simp [view, hk, hb])
  refine ⟨N, htotal, ?_, ?_, ?_⟩
  · intro m hm hk
    obtain ⟨b, hb⟩ := hR.exists_get? hm
    rw [hb]
    refine hext _ _ ?_
    rw [hview m hm]
    simp [view, hk, hb]
  · intro t ht hk b hb
    refine hext _ _ ?_
    rw [hview t ht]
    simp [view, Variable.isMutable_of_isTriggered hk, hk, hb]
  · intro v hv hm hlatch
    refine hholds v hv hm ?_
    rw [hview v hv]
    cases hk : v.isTriggered with
    | false => simp [view, hm, hk]
    | true => simp [view, hm, hk, hlatch hk]

/-- **A graft agrees with every state that grounds a variable** and has the same mutables below. -/
theorem Graft.get?_eq (hc : g.Closed) (h : g.Graft K R N) :
    ∀ u ∈ g.declared, g.Grounds K X u →
      (∀ m ∈ g.declared, m.isMutable = true → (m = u ∨ u.dependsOn m.name = true) →
        X.get? m.name = R.get? m.name) → N.get? u.name = X.get? u.name := by
  refine hg.induction ?_ ?_
  · intro u hu hm _ hsame
    rw [h.mutables u hu hm, hsame u hu hm (Or.inl rfl)]
  · intro u hu hm ih hgrounds hsame
    obtain ⟨hobeys, hknown⟩ := hgrounds u hu hm (Or.inl rfl)
    have hclosure : ∀ w ∈ g.declared, u.dependsOn w.name = true →
        N.get? w.name = X.get? w.name := by
      intro w hw hd
      refine ih w hw hd (hgrounds.of_dependsOn hc hu hw hd) ?_
      intro m hmem hk hmw
      exact hsame m hmem hk (Or.inr (hc.dependsOn_through hu hw hd hmw))
    by_cases hlatch : u.isTriggered = true → K.get? u.name = none
    · obtain ⟨rule, b, hr, hb, hN⟩ := h.holds u hu hm hlatch
      obtain ⟨rule', b', hr', hb', hX⟩ := hobeys
      obtain rfl : rule = rule' := Option.some.inj (hr.symm.trans hr')
      have hbb : b = b' := by
        rw [rule_eq_of_closure hg hl hu hm hr hclosure, hb'] at hb
        exact (Except.ok.inj hb).symm
      rw [hN, hbb]
      cases hK : K.get? u.name with
      | none =>
        rw [hK] at hX
        exact hX.symm
      | some r =>
        -- It is recorded and no latch, so the rule gives what is recorded.
        rw [hK] at hX
        have hk : u.isTriggered = false := by
          by_contra hk
          rw [hlatch (Bool.not_eq_false _ ▸ hk)] at hK
          cases hK
        have hrb : r = b' := by simpa [Variable.admits, hk] using hX
        rw [hknown r hK, hrb]
    · obtain ⟨hk, hK⟩ := Classical.not_imp.mp hlatch
      obtain ⟨b, hb⟩ := Option.ne_none_iff_exists'.mp hK
      rw [h.latches u hu hk b hb, hknown b hb]

theorem obeys_of_recorded_true (htotal : ∀ name, N.contains name = true ↔ name ∈ g.names)
    (hu : u ∈ g.declared) (hk : u.isTriggered = true) (hK : K.get? u.name = some true) :
    u.Obeys .latched K N := by
  have hm := Variable.isMutable_of_isTriggered hk
  obtain ⟨rule, hr⟩ := Variable.rule?_of_not_mutable hm
  obtain ⟨b, hb⟩ := (hl u hu rule hr).2 N fun name hn =>
    (htotal name).mpr (hg.name_mem_of_dependsOn hu hm hn)
  refine ⟨rule, b, hr, hb, ?_⟩
  rw [hK]
  simp [Variable.admits, Mode.admits, hk]

/-- **A graft is a model** if the other state has the mutables that are known, and everything else
that is known is grounded in some state with these mutables below.  A latch that is recorded true
needs no ground. -/
theorem Graft.isModel (hc : g.Closed) (hN : g.Graft K R N) (hR : g.IsModel .latched L R)
    (hK : g.IsKnowledge K)
    (hmut : ∀ m ∈ g.declared, m.isMutable = true → ∀ b, K.get? m.name = some b →
      R.get? m.name = some b)
    (hrest : ∀ u ∈ g.declared, u.isMutable = false → ∀ b, K.get? u.name = some b →
      (u.isTriggered = true → b = false) →
      ∃ X, g.Grounds K X u ∧ ∀ m ∈ g.declared, m.isMutable = true → u.dependsOn m.name = true →
        X.get? m.name = R.get? m.name) :
    g.IsModel .latched K N := by
  have hground : ∀ u ∈ g.declared, u.isMutable = false → ∀ b, K.get? u.name = some b →
      (u.isTriggered = true → b = false) →
      ∃ X, g.Grounds K X u ∧ N.get? u.name = X.get? u.name ∧
        ∀ w ∈ g.declared, u.dependsOn w.name = true → N.get? w.name = X.get? w.name := by
    intro u hu hm b hb hopen
    obtain ⟨X, hgrounds, hsame⟩ := hrest u hu hm b hb hopen
    refine ⟨X, hgrounds, ?_, ?_⟩
    · refine hN.get?_eq hg hl hc u hu hgrounds ?_
      rintro m hmem hk (rfl | hd)
      · rw [hm] at hk
        cases hk
      · exact hsame m hmem hk hd
    · intro w hw hd
      refine hN.get?_eq hg hl hc w hw (hgrounds.of_dependsOn hc hu hw hd) ?_
      intro m hmem hk hmw
      exact hsame m hmem hk (hc.dependsOn_through hu hw hd hmw)
  have hextends : N.Extends K := by
    intro name b hb
    obtain ⟨u, hu, rfl⟩ := List.mem_map.mp (hK name (Table.contains_iff.mpr ⟨b, hb⟩))
    cases hm : u.isMutable with
    | true => rw [hN.mutables u hu hm, hmut u hu hm b hb]
    | false =>
      by_cases hopen : u.isTriggered = true → b = false
      · obtain ⟨X, hgrounds, hsame, _⟩ := hground u hu hm b hb hopen
        rw [hsame]
        exact (hgrounds u hu hm (Or.inl rfl)).2 b hb
      · exact hN.latches u hu (Classical.not_imp.mp hopen).1 b hb
  refine isModel_of_obeys hN.total hextends ?_ ?_
  · intro u hu hm
    by_cases hlatch : u.isTriggered = true → K.get? u.name = none
    · exact (hN.holds u hu hm hlatch).obeys hextends
    · obtain ⟨hk, hrecorded⟩ := Classical.not_imp.mp hlatch
      obtain ⟨b, hb⟩ := Option.ne_none_iff_exists'.mp hrecorded
      cases b with
      | true => exact obeys_of_recorded_true hg hl hN.total hu hk hb
      | false =>
        obtain ⟨X, hgrounds, _, hclosure⟩ := hground u hu hm false hb fun _ => rfl
        obtain ⟨rule, c, hr, hX, hmatch⟩ := (hgrounds u hu hm (Or.inl rfl)).1
        refine ⟨rule, c, hr, ?_, ?_⟩
        · rw [rule_eq_of_closure hg hl hu hm hr hclosure, hX]
        · rw [hb] at hmatch ⊢
          exact hmatch
  · intro d hd
    exact hc.inRange_congr hN.mutables hd (hR.in_range d hd)

/-- **What is known has a model if it can be grafted**: one state has the mutables that are known,
and everything else that is known is grounded in some state with these mutables below. -/
theorem exists_isModel_graft (hc : g.Closed) (hR : g.IsModel .latched L R) (hK : g.IsKnowledge K)
    (hmut : ∀ m ∈ g.declared, m.isMutable = true → ∀ b, K.get? m.name = some b →
      R.get? m.name = some b)
    (hrest : ∀ u ∈ g.declared, u.isMutable = false → ∀ b, K.get? u.name = some b →
      ∃ X, g.Grounds K X u ∧ ∀ m ∈ g.declared, m.isMutable = true → u.dependsOn m.name = true →
        X.get? m.name = R.get? m.name) :
    ∃ N, g.IsModel .latched K N := by
  obtain ⟨N, hN⟩ := exists_graft hg hl K hR
  exact ⟨N, hN.isModel hg hl hc hR hK hmut fun u hu hm b hb _ => hrest u hu hm b hb⟩

end

end Chronicle.Graph
