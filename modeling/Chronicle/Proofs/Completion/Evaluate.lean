import Chronicle.Evaluation
import Chronicle.Proofs.Completion.Model

/-!
# Evaluation

To evaluate is to apply rules in an order that respects closures.  It never fails, it leaves what
is there, and in the end every variable that was evaluated has the value of its rule
(`applyRules_run`).  So values for the mutables lead to a whole state (`evaluateOn_run`), and so do
values for the mutables and for some others (`exists_extension`), where only what has no value is
evaluated.

Where no variable is a latch a state has no other obstacle than its rules, so a model of one state
of knowledge completes every other that it extends (`isCompletion_of_extends`).
-/

namespace Chronicle

/-- The variable has the value that its rule gives. -/
def Variable.Holds (v : Variable) (t : Valuation) : Prop :=
  ∃ rule b, v.rule? = some rule ∧ rule t = .ok b ∧ t.get? v.name = some b

theorem Variable.Holds.obeys {v : Variable} {mode : Mode} {s t : Valuation} (h : v.Holds t)
    (ht : t.Extends s) : v.Obeys mode s t := by
  obtain ⟨rule, b, hr, hb, hv⟩ := h
  refine ⟨rule, b, hr, hb, ?_⟩
  cases hs : s.get? v.name with
  | none => exact hv
  | some r =>
    have hsame : b = r := Option.some.inj (hv.symm.trans (ht _ _ hs))
    subst hsame
    cases mode <;> simp [Variable.admits, Mode.admits]

namespace Graph

variable {g : Graph} {mode : Mode} {e p q s t : Valuation} {v : Variable} {l : List Variable}

theorem isModel_of_holds (htotal : ∀ name, t.contains name = true ↔ name ∈ g.names)
    (hext : t.Extends p) (hholds : ∀ v ∈ g.declared, v.isMutable = false → v.Holds t)
    (hdials : ∀ d ∈ g.dials, d.InRange t) : g.IsModel mode p t :=
  isModel_of_obeys htotal hext (fun v hv hm => (hholds v hv hm).obeys hext) hdials

/-- **Evaluation does not fail**: it adds the values of exactly these variables, and in the end
each of them has the value of its rule. -/
theorem applyRules_run (hl : g.IsLocal) (h : g.Pending s l)
    (hn : ∀ v ∈ l, s.get? v.name = none) :
    ∃ t, applyRules l s = .ok t ∧ t.Extends s ∧
      (∀ name, t.contains name = true ↔ s.contains name = true ∨ name ∈ l.map Variable.name) ∧
      ∀ v ∈ l, v.Holds t := by
  induction l generalizing s with
  | nil => exact ⟨s, rfl, Valuation.Extends.refl s, by simp, by simp⟩
  | cons v rest ih =>
    obtain ⟨hv, hm⟩ := h.declared v List.mem_cons_self
    obtain ⟨rule, hr⟩ := Variable.rule?_of_not_mutable hm
    obtain ⟨b, hb⟩ := (hl v hv rule hr).2 s h.follows.1
    have hset : Valuation.Extends (s.set v.name b) s :=
      Valuation.extends_set (hn v List.mem_cons_self) b
    have hknown : (s.set v.name b).get? v.name = some b := by simp
    obtain ⟨t, ht, hext, hnames, hholds⟩ :=
      ih (h.tail hset (Table.contains_iff.mpr ⟨b, hknown⟩)) (by
        intro w hw
        rw [Table.get?_set_of_ne _ (h.ne_of_mem_tail hw)]
        exact hn w (List.mem_cons_of_mem v hw))
    refine ⟨t, ?_, hext.trans hset, ?_, ?_⟩
    · have hcomputes : v.computes s = .ok b := by
        rw [Variable.computes, hr]
        exact hb
      rw [applyRules, hcomputes, ok_bind]
      exact ht
    · intro name
      rw [hnames, Table.contains_set, List.map_cons, List.mem_cons]
      simp only [Bool.or_eq_true, decide_eq_true_eq]
      tauto
    · intro w hw
      rcases List.mem_cons.mp hw with rfl | hw
      · -- The rule saw its closure, so it gives the same on the last valuation.
        refine ⟨rule, b, hr, ?_, hext _ _ hknown⟩
        rw [rule_eq_of_extends hl hv hr h.follows.1 (hext.trans hset), hb]
      · exact hholds w hw

theorem Pending.filter_unknown (h : g.Pending s l) :
    g.Pending s (l.filter fun v => !s.contains v.name) where
  declared := fun v hv => h.declared v (List.mem_of_mem_filter hv)
  distinct := (List.filter_sublist.map Variable.name).nodup h.distinct
  follows := h.follows.filter fun v _ hv => by simpa using hv

section

variable (hg : g.WellFormed) (hl : g.IsLocal)

include hg

theorem contains_defaults_iff (name : String) :
    g.defaults.contains name = true ↔ name ∈ g.mutables.map Variable.name := by
  rw [defaults, contains_fill_iff hg]
  refine ⟨?_, Or.inr⟩
  rintro (hn | hn)
  · cases hn
  · exact hn

theorem pending_order (hmut : ∀ m ∈ g.declared, m.isMutable = true → s.contains m.name = true) :
    g.Pending s g.order where
  declared := fun _ hv => hg.mem_order_iff.mp hv
  distinct := hg.order_nodup
  follows := by
    refine hg.follows.mono ?_
    intro name hn
    obtain ⟨m, hm, rfl⟩ := List.mem_map.mp hn
    obtain ⟨hm, hk⟩ := List.mem_filter.mp hm
    exact hmut m hm hk

include hl

/-- **Values for the mutables and some others extend to a whole state**, in which every rule holds
but perhaps those of the variables that had a value. -/
theorem exists_extension (hs : g.IsKnowledge s)
    (hmut : ∀ m ∈ g.declared, m.isMutable = true → s.contains m.name = true) :
    ∃ t, t.Extends s ∧ (∀ name, t.contains name = true ↔ name ∈ g.names) ∧
      ∀ v ∈ g.declared, v.isMutable = false → s.get? v.name = none → v.Holds t := by
  have hunknown : ∀ v ∈ g.order.filter (fun v => !s.contains v.name), s.get? v.name = none := by
    intro v hv
    simpa [Table.contains_eq_false_iff] using (List.mem_filter.mp hv).2
  obtain ⟨t, _, hext, hnames, hholds⟩ :=
    applyRules_run hl (pending_order hg hmut).filter_unknown hunknown
  refine ⟨t, hext, ?_, ?_⟩
  · intro name
    rw [hnames]
    refine ⟨?_, ?_⟩
    · rintro (hn | hn)
      · exact hs name hn
      · obtain ⟨v, hv, rfl⟩ := List.mem_map.mp hn
        exact List.mem_map_of_mem (hg.mem_order_iff.mp (List.mem_of_mem_filter hv)).1
    · intro hn
      obtain ⟨v, hv, rfl⟩ := List.mem_map.mp hn
      cases hm : v.isMutable with
      | true => exact Or.inl (hmut v hv hm)
      | false =>
        cases hc : s.contains v.name with
        | true => exact Or.inl rfl
        | false =>
          refine Or.inr (List.mem_map_of_mem ?_)
          exact List.mem_filter.mpr ⟨hg.mem_order_iff.mpr ⟨hv, hm⟩, by simp [hc]⟩
  · intro v hv hm hn
    refine hholds v (List.mem_filter.mpr ⟨hg.mem_order_iff.mpr ⟨hv, hm⟩, ?_⟩)
    simpa [Table.contains_eq_false_iff] using hn

/-- **A model evaluated anew on some variables**: the others keep their values, and of these every
rule holds. -/
theorem IsModel.exists_anew (h : g.IsModel mode p t) (anew : Variable → Bool)
    (hmut : ∀ v ∈ g.declared, v.isMutable = true → anew v = false) :
    ∃ t', (∀ name, t'.contains name = true ↔ name ∈ g.names) ∧
      (∀ v ∈ g.declared, anew v = false → t'.get? v.name = t.get? v.name) ∧
      ∀ v ∈ g.declared, anew v = true → v.Holds t' := by
  let kept : List String := (g.declared.filter fun v => !anew v).map Variable.name
  have hkept : ∀ v ∈ g.declared, (t.restrictedTo kept).get? v.name =
      if anew v = false then t.get? v.name else none := by
    intro v hv
    rw [Valuation.get?_restrictedTo]
    refine if_congr ?_ rfl rfl
    refine ⟨?_, ?_⟩
    · intro hn
      obtain ⟨w, hw, he⟩ := List.mem_map.mp hn
      obtain ⟨hw, hk⟩ := List.mem_filter.mp hw
      obtain rfl := hg.eq_of_name hw hv he
      simpa using hk
    · intro hk
      exact List.mem_map.mpr ⟨v, List.mem_filter.mpr ⟨hv, by rw [hk]; rfl⟩, rfl⟩
  have hvalue : ∀ v ∈ g.declared, ∃ b, t.get? v.name = some b := fun v hv => h.exists_get? hv
  obtain ⟨t', hext, htotal, hholds⟩ := exists_extension (s := t.restrictedTo kept) hg hl
    (by
      intro name hn
      obtain ⟨b, hb⟩ := Table.contains_iff.mp hn
      rw [Valuation.get?_restrictedTo] at hb
      split at hb
      · exact (h.total name).mp (Option.isSome_iff_exists.mpr ⟨b, hb⟩)
      · cases hb)
    (by
      intro m hm hk
      obtain ⟨b, hb⟩ := hvalue m hm
      refine Table.contains_iff.mpr ⟨b, ?_⟩
      rw [hkept m hm, if_pos (hmut m hm hk), hb])
  refine ⟨t', htotal, ?_, ?_⟩
  · intro v hv hk
    obtain ⟨b, hb⟩ := hvalue v hv
    rw [hb]
    exact hext _ _ ((hkept v hv).trans ((if_pos hk).trans hb))
  · intro v hv hk
    have hrule : v.isMutable = false := by
      by_contra hm
      rw [hmut v hv (Bool.not_eq_false _ ▸ hm)] at hk
      cases hk
    refine hholds v hv hrule ?_
    rw [hkept v hv, hk, if_neg (by simp)]

/-- **Values for the mutables evaluate to a state** in which every rule holds. -/
theorem evaluateOn_run
    (he : ∀ name, e.contains name = true ↔ name ∈ g.mutables.map Variable.name) :
    ∃ t, g.evaluateOn e = .ok t ∧ t.Extends e ∧
      (∀ name, t.contains name = true ↔ name ∈ g.names) ∧
      ∀ v ∈ g.declared, v.isMutable = false → v.Holds t := by
  have hpending : g.Pending e g.order := by
    refine pending_order hg ?_
    intro m hm hk
    exact (he m.name).mpr ((hg.name_mem_mutables_iff hm).mpr hk)
  have hunknown : ∀ v ∈ g.order, e.get? v.name = none := by
    intro v hv
    obtain ⟨hv, hm⟩ := hg.mem_order_iff.mp hv
    rw [← Table.contains_eq_false_iff, ← Bool.not_eq_true, he, hg.name_mem_mutables_iff hv, hm]
    exact Bool.false_ne_true
  obtain ⟨t, ht, hext, hnames, hholds⟩ := applyRules_run hl hpending hunknown
  refine ⟨t, ht, hext, ?_, fun v hv hm => hholds v (hg.mem_order_iff.mpr ⟨hv, hm⟩)⟩
  intro name
  rw [hnames, he, mem_names_iff hg]

theorem evaluateOn_eq_ok
    (he : ∀ name, e.contains name = true ↔ name ∈ g.mutables.map Variable.name)
    (h : g.evaluateOn e = .ok s) :
    s.Extends e ∧ (∀ name, s.contains name = true ↔ name ∈ g.names) ∧
      ∀ v ∈ g.declared, v.isMutable = false → v.Holds s := by
  obtain ⟨t, ht, hspec⟩ := evaluateOn_run hg hl he
  obtain rfl : t = s := Except.ok.inj (ht.symm.trans h)
  exact hspec

end

theorem dialsValid_eq_true_iff : g.dialsValid s = .ok true ↔ ∀ d ∈ g.dials, d.InRange s := by
  unfold dialsValid
  induction g.dials with
  | nil => simp [List.allM]
  | cons d rest ih =>
    have hvalid : d.isValid s = .ok true ↔ d.InRange s := by
      rw [Dial.isValid, bind_eq_ok]
      simp [Dial.InRange]
    rw [List.forall_mem_cons, ← hvalid, ← ih, List.allM, bind_eq_ok]
    refine ⟨?_, ?_⟩
    · rintro ⟨b, hb, h⟩
      cases b with
      | true => exact ⟨hb, h⟩
      | false => cases h
    · rintro ⟨hb, h⟩
      exact ⟨true, hb, h⟩

/-! ### Graphs without latches -/

def Untriggered (g : Graph) : Prop := ∀ v ∈ g.declared, v.isTriggered = false

instance : Decidable g.Untriggered :=
  inferInstanceAs (Decidable (∀ v ∈ g.declared, v.isTriggered = false))

theorem IsCompletion.get?_mutable (h : g.IsCompletion mode p s) (hv : v ∈ g.declared)
    (hm : v.isMutable = true) : s.get? v.name = some ((p.get? v.name).getD v.default) := by
  cases hp : p.get? v.name with
  | none => exact h.default v hv hm hp
  | some b => exact h.extends_known _ _ hp

/-- A completion of knowledge without latches completes all further knowledge that it extends and
that leaves its unknown mutables at their defaults. -/
theorem isCompletion_of_extends {mode' : Mode} (hu : g.Untriggered) (h : g.IsModel mode p s)
    (hs : s.Extends q) (hdefault : ∀ v ∈ g.declared, v.isMutable = true → q.get? v.name = none →
      s.get? v.name = some v.default) : g.IsCompletion mode' q s where
  total := h.total
  extends_known := hs
  derived := h.derived
  triggered := by
    intro v hv rule persistent hr
    have hk := hu v hv
    simp [Variable.isTriggered, Variable.kind, hr] at hk
  in_range := h.in_range
  default := hdefault

theorem Untriggered.triggersDependentOn (hu : g.Untriggered) (hg : g.WellFormed) (name : String) :
    g.triggersDependentOn name = [] := by
  rw [Graph.triggersDependentOn, List.filter_eq_nil_iff]
  intro v hv
  rw [hu v (hg.mem_order_iff.mp (List.mem_of_mem_filter hv)).1]
  exact Bool.false_ne_true

theorem Untriggered.isMutable (hu : g.Untriggered) (hv : v ∈ g.declared)
    (hd : v.isDerived = false) : v.isMutable = true := by
  by_contra hm
  have hk := Variable.isTriggered_of_not (Bool.not_eq_true _ ▸ hm) hd
  rw [hu v hv] at hk
  cases hk

end Graph

end Chronicle
