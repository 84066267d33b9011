import Chronicle.Proofs.Completion.Pass

/-!
# Completions and models

The completion by defaults of what is known of a valid graph with local rules, said without the
pass: `IsCompletion` is a model in which every unknown mutable has its default.

* `exists_complete?`: to complete never fails.
* `isCompletion_of_complete?`: what comes out is a completion.
* `complete?_of_isCompletion`: and if there is a completion it comes out.
-/

namespace Chronicle

namespace Dial

variable {d : Dial} {s t : Valuation}

theorem sumBits_eq_ok {names : List String} (i : Nat)
    (h : ∀ name ∈ names, s.contains name = true) : ∃ n, sumBits s i names = .ok n := by
  induction names generalizing i with
  | nil => exact ⟨0, rfl⟩
  | cons name rest ih =>
    obtain ⟨b, hb⟩ := Table.contains_iff.mp (h name List.mem_cons_self)
    obtain ⟨n, hn⟩ := ih (i + 1) fun other ho => h other (List.mem_cons_of_mem name ho)
    have hread : s.read name = .ok b := Valuation.read_eq_ok_iff.mpr hb
    exact ⟨(if b then Nat.pow 2 i else 0) + n, by simp [sumBits, hread, hn]⟩

theorem sumBits_congr {names : List String} (i : Nat)
    (h : ∀ name ∈ names, s.get? name = t.get? name) : sumBits s i names = sumBits t i names := by
  induction names generalizing i with
  | nil => rfl
  | cons name rest ih =>
    have hread : s.read name = t.read name := by
      unfold Valuation.read
      rw [h name List.mem_cons_self]
    simp only [sumBits, hread, ih (i + 1) fun other ho => h other (List.mem_cons_of_mem name ho)]

theorem value_eq_ok (h : ∀ b ∈ d.bits, s.contains b.name = true) : ∃ n, d.value s = .ok n := by
  refine sumBits_eq_ok 0 ?_
  intro name hn
  obtain ⟨b, hb, rfl⟩ := List.mem_map.mp hn
  exact h b hb

theorem value_congr (h : ∀ b ∈ d.bits, s.get? b.name = t.get? b.name) : d.value s = d.value t := by
  refine sumBits_congr 0 ?_
  intro name hn
  obtain ⟨b, hb, rfl⟩ := List.mem_map.mp hn
  exact h b hb

def InRange (d : Dial) (s : Valuation) : Prop := ∃ n, d.value s = .ok n ∧ n ≤ d.max

theorem check_cases (h : ∀ b ∈ d.bits, s.contains b.name = true) :
    (d.InRange s ∧ d.check s = .mk (.ok (.ok ()))) ∨
      (¬ d.InRange s ∧ ∃ o, d.check s = .mk (.ok (.error o))) := by
  obtain ⟨n, hn⟩ := value_eq_ok h
  unfold check
  rw [hn]
  by_cases hle : n ≤ d.max
  · refine Or.inl ⟨⟨n, hn, hle⟩, ?_⟩
    show (if d.max < n then _ else _ : Pass Unit) = _
    rw [if_neg (by omega)]
    rfl
  · refine Or.inr ⟨?_, .overflow d.name n d.max, ?_⟩
    · rintro ⟨m, hm, hle'⟩
      rw [hn] at hm
      cases hm
      exact hle hle'
    · show (if d.max < n then _ else _ : Pass Unit) = _
      rw [if_pos (by omega)]
      rfl

theorem checks_cases {dials : List Dial}
    (h : ∀ d ∈ dials, ∀ b ∈ d.bits, s.contains b.name = true) :
    ((∀ d ∈ dials, d.InRange s) ∧ dials.forM (check · s) = .mk (.ok (.ok ()))) ∨
      ((¬ ∀ d ∈ dials, d.InRange s) ∧ ∃ o, dials.forM (check · s) = .mk (.ok (.error o))) := by
  induction dials with
  | nil => exact Or.inl ⟨by simp, rfl⟩
  | cons d rest ih =>
    have hrest := ih fun e he => h e (List.mem_cons_of_mem d he)
    rcases check_cases (h d List.mem_cons_self) with ⟨hd, he⟩ | ⟨hd, o, he⟩
    · have hstep : (d :: rest).forM (check · s) = rest.forM (check · s) := by
        show (check d s >>= fun _ => rest.forM (check · s)) = _
        rw [he]
        rfl
      rw [hstep]
      rcases hrest with ⟨hr, hr'⟩ | ⟨hr, o, hr'⟩
      · exact Or.inl ⟨by simpa using ⟨hd, hr⟩, hr'⟩
      · exact Or.inr ⟨fun hall => hr fun e he => hall e (List.mem_cons_of_mem d he), o, hr'⟩
    · refine Or.inr ⟨fun hall => hd (hall d List.mem_cons_self), o, ?_⟩
      show (check d s >>= fun _ => rest.forM (check · s)) = _
      rw [he]
      rfl

end Dial

namespace Graph

variable {g : Graph} {mode : Mode} {p q s M : Valuation} {v : Variable} {name : String}

/-- A valuation of declared names: what may be known of a graph. -/
def IsKnowledge (g : Graph) (p : Valuation) : Prop :=
  ∀ name, p.contains name = true → name ∈ g.names

theorem isKnowledge_iff : g.IsKnowledge p ↔ ∀ name ∈ p.names, name ∈ g.names := by
  simp only [IsKnowledge, Table.mem_names_iff_contains]

instance : Decidable (g.IsKnowledge p) := decidable_of_iff _ isKnowledge_iff.symm

theorem IsKnowledge.of_extends (hq : g.IsKnowledge q) (h : q.Extends p) : g.IsKnowledge p :=
  fun name hn => hq name (h.contains hn)

/-- A model in which every unknown mutable has its default. -/
structure IsCompletion (g : Graph) (mode : Mode) (p s : Valuation) : Prop
    extends g.IsModel mode p s where
  default : ∀ v ∈ g.declared, v.isMutable = true → p.get? v.name = none →
    s.get? v.name = some v.default

theorem IsModel.exists_get? (h : g.IsModel mode p s) (hv : v ∈ g.declared) :
    ∃ b, s.get? v.name = some b :=
  Option.isSome_iff_exists.mp ((h.total v.name).mpr (List.mem_map_of_mem hv))

/-! ### Models by what variables obey -/

theorem IsModel.obeys (h : g.IsModel mode p s) (hv : v ∈ g.declared) (hm : v.isMutable = false) :
    v.Obeys mode p s := by
  cases hr : v.role with
  | mutable d r => simp [Variable.isMutable, Variable.kind, hr] at hm
  | derived rule =>
    obtain ⟨b, hb, hrule⟩ := h.derived v hv rule hr
    refine ⟨rule, b, by simp [Variable.rule?, hr], hrule, ?_⟩
    cases hp : p.get? v.name with
    | none => exact hb
    | some r =>
      have hsame := h.extends_known v.name r hp
      rw [hb] at hsame
      simp [Variable.admits, Variable.isTriggered, Variable.kind, hr, Option.some.inj hsame]
  | triggered rule persistent =>
    obtain ⟨b, fires, hb, hrule, hfires⟩ := h.triggered v hv rule persistent hr
    refine ⟨rule, fires, by simp [Variable.rule?, hr], hrule, ?_⟩
    cases hp : p.get? v.name with
    | none =>
      rw [hp] at hfires
      simp only [Option.isSome_none, Bool.false_eq_true, if_false] at hfires
      rw [hb, hfires]
    | some r =>
      have hsame := h.extends_known v.name r hp
      rw [hb] at hsame
      rw [hp, Option.some.inj hsame] at hfires
      simpa [Variable.admits, Variable.isTriggered, Variable.kind, hr] using hfires

theorem isModel_of_obeys (htotal : ∀ name, (s.get? name).isSome ↔ name ∈ g.names)
    (hext : s.Extends p) (hobeys : ∀ v ∈ g.declared, v.isMutable = false → v.Obeys mode p s)
    (hdials : ∀ d ∈ g.dials, d.InRange s) : g.IsModel mode p s where
  total := htotal
  extends_known := hext
  derived := by
    intro v hv rule hr
    obtain ⟨rule', b, hr', hb, hm⟩ := hobeys v hv (Variable.isMutable_of_derived hr)
    obtain rfl : rule = rule' := by simpa [Variable.rule?, hr] using hr'
    refine ⟨b, ?_, hb⟩
    cases hp : p.get? v.name with
    | none =>
      rw [hp] at hm
      exact hm
    | some r =>
      rw [hp] at hm
      have he : r = b := by
        simpa [Variable.admits, Variable.isTriggered, Variable.kind, hr] using hm
      rw [← he]
      exact hext v.name r hp
  triggered := by
    intro v hv rule persistent hr
    obtain ⟨rule', fires, hr', hf, hm⟩ := hobeys v hv (Variable.isMutable_of_triggered hr)
    obtain rfl : rule = rule' := by simpa [Variable.rule?, hr] using hr'
    cases hp : p.get? v.name with
    | none =>
      rw [hp] at hm
      exact ⟨fires, fires, hm, hf, by simp⟩
    | some r =>
      rw [hp] at hm
      refine ⟨r, fires, hext v.name r hp, hf, ?_⟩
      simpa [Variable.admits, Variable.isTriggered, Variable.kind, hr] using hm
  in_range := hdials

/-- **A model is one of all knowledge that it extends**, as long as no latch that is recorded true
is forgotten. -/
theorem IsModel.transfer (h : g.IsModel mode p s) (hq : s.Extends q)
    (hlatch : mode = .latched → ∀ v ∈ g.declared, v.isTriggered = true →
      p.get? v.name = some true → q.contains v.name = true) : g.IsModel mode q s := by
  refine isModel_of_obeys h.total hq ?_ h.in_range
  intro v hv hm
  exact (h.obeys hv hm).transfer (h.extends_known v.name) (hq v.name)
    fun hmode hk => hlatch hmode v hv hk

theorem IsModel.of_extends (h : g.IsModel mode p s) (hq : q.Extends p) (hs : s.Extends q) :
    g.IsModel mode q s :=
  h.transfer hs fun _ _ _ _ htrue => Table.contains_iff.mpr ⟨true, hq _ _ htrue⟩

/-- The same holds of completions: what more is known is right, defaults included. -/
theorem IsCompletion.of_extends (h : g.IsCompletion mode p s) (hq : q.Extends p)
    (hs : s.Extends q) : g.IsCompletion mode q s where
  toIsModel := h.toIsModel.of_extends hq hs
  default := by
    intro v hv hm hn
    refine h.default v hv hm ?_
    cases hp : p.get? v.name with
    | none => rfl
    | some b =>
      rw [hq _ _ hp] at hn
      cases hn

/-! ### What completing does -/

theorem complete?_of_pass {r : Except Obstacle Unit}
    (h : (g.order.foldlM (Variable.settle mode) (g.fill p)).run = .ok (.ok s))
    (hd : g.dials.forM (Dial.check · s) = .mk (.ok r)) :
    g.complete? mode p = .ok (r.map fun _ => s).toOption := by
  have hpass : g.order.foldlM (Variable.settle mode) (g.fill p) = .mk (.ok (.ok s)) := h
  unfold complete? complete
  rw [hpass]
  show (do return (← (do g.dials.forM (Dial.check · s); return s : Pass Valuation).run).toOption
    : Except Error (Option Valuation)) = _
  rw [hd]
  cases r <;> rfl

section

variable (hg : g.WellFormed) (hl : g.IsLocal)

include hg

theorem pending_fill (p : Valuation) : g.Pending (g.fill p) g.order where
  declared := fun _ hv => hg.mem_order_iff.mp hv
  distinct := hg.order_nodup
  follows := hg.follows.mono fun _ hn => (contains_fill_iff hg).mpr (Or.inr hn)

theorem mem_names_iff :
    name ∈ g.names ↔ name ∈ g.mutables.map Variable.name ∨ name ∈ g.order.map Variable.name := by
  refine ⟨?_, ?_⟩
  · intro h
    obtain ⟨v, hv, rfl⟩ := List.mem_map.mp h
    cases hm : v.isMutable with
    | true => exact Or.inl ((hg.name_mem_mutables_iff hv).mpr hm)
    | false => exact Or.inr (List.mem_map_of_mem (hg.mem_order_iff.mpr ⟨hv, hm⟩))
  · rintro (h | h)
    · obtain ⟨v, hv, rfl⟩ := List.mem_map.mp h
      exact List.mem_map_of_mem (List.mem_of_mem_filter hv)
    · obtain ⟨v, hv, rfl⟩ := List.mem_map.mp h
      exact List.mem_map_of_mem (hg.mem_order_iff.mp hv).1

theorem obeys_fill_iff (hv : v ∈ g.declared) (hm : v.isMutable = false) :
    v.Obeys mode (g.fill p) s ↔ v.Obeys mode p s := by
  have hn : v.name ∉ g.mutables.map Variable.name := by
    rw [hg.name_mem_mutables_iff hv, hm]
    simp
  unfold Variable.Obeys
  rw [get?_fill_of_notMem hg hn]

include hl

/-- The pass ends at a valuation on which the dials decide, or it is stuck. -/
theorem complete?_cases (mode : Mode) (p : Valuation) :
    (∃ s, (g.order.foldlM (Variable.settle mode) (g.fill p)).run = .ok (.ok s) ∧
      (∀ d ∈ g.dials, d.InRange s) ∧ g.complete? mode p = .ok (some s)) ∨
    ((∀ s, (g.order.foldlM (Variable.settle mode) (g.fill p)).run = .ok (.ok s) →
      ¬ ∀ d ∈ g.dials, d.InRange s) ∧ g.complete? mode p = .ok none) := by
  obtain ⟨r, hr⟩ := pass_total mode hl (pending_fill hg p)
  cases r with
  | error o =>
    have hpass : g.order.foldlM (Variable.settle mode) (g.fill p) = .mk (.ok (.error o)) := hr
    refine Or.inr ⟨?_, ?_⟩
    · intro s hs
      rw [hs] at hr
      cases hr
    · unfold complete? complete
      rw [hpass]
      rfl
  | ok s =>
    obtain ⟨_, hnames, _⟩ := pass_sound hl (pending_fill hg p) hr
    have hbits : ∀ d ∈ g.dials, ∀ b ∈ d.bits, s.contains b.name = true := by
      intro d hd b hb
      rw [hnames, contains_fill_iff hg]
      rcases (mem_names_iff hg).mp (hg.bits d hd b hb) with h | h
      · exact Or.inl (Or.inr h)
      · exact Or.inr h
    rcases Dial.checks_cases hbits with ⟨hall, he⟩ | ⟨hall, o, he⟩
    · refine Or.inl ⟨s, hr, hall, ?_⟩
      exact complete?_of_pass hr he
    · refine Or.inr ⟨?_, ?_⟩
      · intro t ht
        rw [hr] at ht
        cases ht
        exact hall
      · exact complete?_of_pass hr he

/-- **To complete never fails.** -/
theorem exists_complete? (mode : Mode) (p : Valuation) : ∃ r, g.complete? mode p = .ok r := by
  rcases complete?_cases hg hl mode p with ⟨s, _, _, h⟩ | ⟨_, h⟩
  · exact ⟨some s, h⟩
  · exact ⟨none, h⟩

/-- **What comes out is a completion** of what was known. -/
theorem isCompletion_of_complete? (hp : g.IsKnowledge p) (h : g.complete? mode p = .ok (some s)) :
    g.IsCompletion mode p s := by
  rcases complete?_cases hg hl mode p with ⟨t, ht, hdials, he⟩ | ⟨_, he⟩
  · rw [he] at h
    cases h
    obtain ⟨hext, hnames, hobeys⟩ := pass_sound hl (pending_fill hg p) ht
    refine ⟨?_, ?_⟩
    · refine isModel_of_obeys ?_ (hext.trans (fill_extends hg p)) ?_ hdials
      · intro name
        have hn := hnames name
        rw [contains_fill_iff hg] at hn
        rw [show (s.get? name).isSome = s.contains name from rfl, hn]
        refine ⟨?_, ?_⟩
        · rintro ((h | h) | h)
          · exact hp name h
          · exact (mem_names_iff hg).mpr (Or.inl h)
          · exact (mem_names_iff hg).mpr (Or.inr h)
        · intro h
          rcases (mem_names_iff hg).mp h with h | h
          · exact Or.inl (Or.inr h)
          · exact Or.inr h
      · intro v hv hm
        exact (obeys_fill_iff hg hv hm).mp (hobeys v (hg.mem_order_iff.mpr ⟨hv, hm⟩))
    · intro v hv hm hn
      exact hext _ _ (get?_fill_mutable hg hv hm hn)
  · rw [he] at h
    cases h

/-- **If there is a completion it comes out**, with the same values. -/
theorem complete?_of_isCompletion (h : g.IsCompletion mode p M) :
    ∃ s, g.complete? mode p = .ok (some s) ∧ ∀ name, s.get? name = M.get? name := by
  have hfill : M.Extends (g.fill p) := by
    intro name b hb
    rw [get?_fill hg] at hb
    rcases Option.or_eq_some_iff.mp hb with hb | ⟨hnone, hb⟩
    · exact h.extends_known name b hb
    · obtain ⟨v, hf, rfl⟩ := Option.map_eq_some_iff.mp hb
      obtain ⟨hv, rfl⟩ := (findIn_eq_some_iff hg.mutables_nodup).mp hf
      obtain ⟨hv, hm⟩ := List.mem_filter.mp hv
      exact h.default v hv hm hnone
  have hobeys : ∀ v ∈ g.order, v.Obeys mode (g.fill p) M := by
    intro v hv
    obtain ⟨hv, hm⟩ := hg.mem_order_iff.mp hv
    exact (obeys_fill_iff hg hv hm).mpr (h.obeys hv hm)
  obtain ⟨s, hs, hMs⟩ := pass_complete hl (pending_fill hg p) hfill hobeys
  obtain ⟨_, hnames, _⟩ := pass_sound hl (pending_fill hg p) hs
  have hknown : ∀ name ∈ g.names, s.contains name = true := by
    intro name hn
    rw [hnames, contains_fill_iff hg]
    rcases (mem_names_iff hg).mp hn with hn | hn
    · exact Or.inl (Or.inr hn)
    · exact Or.inr hn
  have hsame : ∀ name, s.get? name = M.get? name := by
    intro name
    by_cases hn : name ∈ g.names
    · exact (hMs.get?_eq (hknown name hn)).symm
    · have hM : M.get? name = none := by
        rw [← Option.not_isSome_iff_eq_none, h.total]
        exact hn
      cases hsn : s.get? name with
      | none => exact hM.symm
      | some b =>
        rw [hMs name b hsn] at hM
        cases hM
  refine ⟨s, ?_, hsame⟩
  rcases complete?_cases hg hl mode p with ⟨t, ht, _, he⟩ | ⟨hstuck, _⟩
  · rw [hs] at ht
    cases ht
    exact he
  · exfalso
    refine hstuck s hs ?_
    intro d hd
    obtain ⟨n, hn, hle⟩ := h.in_range d hd
    exact ⟨n, (Dial.value_congr fun b _ => hsame b.name).trans hn, hle⟩

end

end Graph

end Chronicle
