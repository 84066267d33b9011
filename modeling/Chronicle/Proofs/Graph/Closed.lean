import Chronicle.Proofs.Catalogue.Link
import Chronicle.Proofs.Dial.Digits

/-!
# Closed graphs

In a valid graph a closure holds the closures of all that it holds (`Closed.trans`), so what a
variable reads in the end is the same whether one looks at its closure or through it.  And the bits
of its dials are mutables that start from the digits of a number in range (`Closed.bits`).

From the first comes that derived variables are settled by their roots: two models that agree on
the mutables and latches in a closure agree on the variable (`IsModel.get?_eq_of_roots`).  From the
second, that with every mutable at its default all dials are in range (`Closed.inRange`).
-/

namespace Chronicle

namespace Graph

/-- Closures are closed, and bits are mutables at the digits of the start of their dial. -/
structure Closed (g : Graph) : Prop where
  trans : ∀ v ∈ g.declared, ∀ w ∈ g.declared, v.dependsOn w.name = true →
    ∀ name, w.dependsOn name = true → v.dependsOn name = true
  bits : ∀ d ∈ g.dials, ∀ i < d.width, ∃ v ∈ g.declared, v.name = d.bitName i ∧
    v.role = .mutable (d.start.testBit i) true

theorem declares_closure {c : Catalogue} (hc : c.Sound) {vs order : List Variable}
    (hmade : ∀ v ∈ vs, v ∈ c.made) (hn : (vs.map Variable.name).Nodup)
    (hdeps : checkDependencies vs vs = .ok ())
    (hperm : order.Perm (vs.filter fun v => !v.isMutable)) {placed : String → Prop}
    (hplaced : ∀ name, placed name → name ∈ (vs.filter Variable.isMutable).map Variable.name)
    (hf : Follows Needs placed order) :
    ∀ v ∈ vs, ∀ s ∈ v.closure, ∃ w ∈ vs, w.symbol = s := by
  have horder : ∀ v ∈ order, v ∈ vs := fun v hv => List.mem_of_mem_filter (hperm.mem_iff.mp hv)
  have hmut : ∀ v ∈ vs, v.isMutable = true → v.closure = [] := fun v hv hm =>
    hc.mutable_closure v (hmade v hv) hm
  have hpending : ∀ v ∈ order, ∀ s ∈ v.closure, ∃ w ∈ vs, w.symbol = s := by
    refine hf.induction ?_
    intro v hv hneeds s hs
    rcases hc.closure v (hmade v (horder v hv)) s hs with hd | ⟨x, hx, hxd, hxs⟩
    · exact (declares_iff hn).mp (declares_of_checkDependencies hdeps (horder v hv) hd)
    · -- The dependency that brings the symbol is declared, and comes earlier.
      obtain ⟨w, hw, hwx⟩ :=
        (declares_iff hn).mp (declares_of_checkDependencies hdeps (horder v hv) hxd)
      obtain rfl := List.inj_on_of_nodup_map hc.distinct (hmade w hw) hx hwx
      rcases hneeds w.name ⟨w.symbol, hxd, rfl⟩ with hp | ⟨y, hy, he, hP⟩
      · obtain ⟨y, hy, he⟩ := List.mem_map.mp (hplaced _ hp)
        obtain ⟨hy, hm⟩ := List.mem_filter.mp hy
        obtain rfl := List.inj_on_of_nodup_map hn hy hw he
        rw [hmut y hy hm] at hxs
        cases hxs
      · obtain rfl := List.inj_on_of_nodup_map hn (horder y hy) hw he
        exact hP s hxs
  intro v hv s hs
  cases hm : v.isMutable with
  | true =>
    rw [hmut v hv hm] at hs
    cases hs
  | false =>
    have hmem : v ∈ order := hperm.mem_iff.mpr (List.mem_filter.mpr ⟨hv, by simp [hm]⟩)
    exact hpending v hmem s hs

/-- **A valid graph is closed.** -/
theorem IsValid.closed {g : Graph} (h : g.IsValid) : g.Closed := by
  obtain ⟨entries, c, operands, dials, hc, hmade, hlabels, hbuild⟩ := h
  have hsound := Catalogue.sound_defineAll hc
  have hlinked := Catalogue.linked_defineAll hc
  obtain ⟨hvs, hdeps, hdials, horder, hd⟩ := build_eq_ok hbuild
  obtain ⟨hmem, hnodup⟩ := declareFrom_spec hvs
  have hdeclared : ∀ v ∈ g.declared, v ∈ c.made := fun v hv => hmade v (hmem v hv).1
  have hclosure := declares_closure hsound hdeclared hnodup hdeps
    (layers_perm (Nat.le_refl _) horder) (fun _ hp => hp) (layers_follows horder)
  refine ⟨?_, ?_⟩
  · intro v hv w hw hd name hn
    obtain ⟨s, hs, he⟩ := List.mem_map.mp (Variable.dependsOn_iff.mp hd)
    obtain ⟨x, hx, hxs, hsub⟩ := hlinked.closed v (hdeclared v hv) s hs
    -- The symbol in the closure is declared, so it is that of the only variable of its name.
    obtain ⟨y, hy, hys⟩ := hclosure v hv s hs
    obtain rfl := List.inj_on_of_nodup_map hsound.distinct (hdeclared y hy) hx (hys.trans hxs.symm)
    have hyn : y.name = w.name := (congrArg Symbol.name hys).trans he
    obtain rfl := List.inj_on_of_nodup_map hnodup hy hw hyn
    exact hsub name hn
  · intro d hmemd i hi
    obtain ⟨label, hlabel⟩ := hlabels d (hd ▸ hmemd)
    obtain ⟨w, hw, hws, hwr⟩ := hlinked.bits label d hlabel i hi
    have hbit : (⟨d.bitName i, d.base + i⟩ : Symbol) ∈ d.bits :=
      List.mem_map.mpr ⟨i, List.mem_range.mpr hi, rfl⟩
    obtain ⟨v, hv, hvs⟩ :=
      (declares_iff hnodup).mp (declares_of_checkDials hdials (hd ▸ hmemd) hbit)
    obtain rfl := List.inj_on_of_nodup_map hsound.distinct (hdeclared v hv) hw (hvs.trans hws.symm)
    exact ⟨v, hv, congrArg Symbol.name hws, hwr⟩

theorem IsValid.closure_mutable {g : Graph} (h : g.IsValid) {v : Variable} (hv : v ∈ g.declared)
    (hm : v.isMutable = true) : v.closure = [] := by
  obtain ⟨entries, c, operands, dials, hc, hmade, _, hbuild⟩ := h
  obtain ⟨hvs, _⟩ := build_eq_ok hbuild
  exact (Catalogue.sound_defineAll hc).mutable_closure v (hmade v ((declareFrom_spec hvs).1 v hv).1)
    hm

theorem IsValid.dependsOn_mutable {g : Graph} (h : g.IsValid) {v : Variable} (hv : v ∈ g.declared)
    (hm : v.isMutable = true) (name : String) : v.dependsOn name = false := by
  rw [Variable.dependsOn, h.closure_mutable hv hm]
  rfl

theorem IsValid.isMutable_of_dependsOn {g : Graph} (h : g.IsValid) {v : Variable}
    (hv : v ∈ g.declared) {name : String} (hd : v.dependsOn name = true) : v.isMutable = false := by
  by_contra hm
  rw [h.dependsOn_mutable hv (Bool.not_eq_false _ ▸ hm)] at hd
  cases hd

/-- **The dependents of a name** are the declared variables that have it in their closure. -/
theorem IsValid.mem_dependentsOf_iff {g : Graph} (h : g.IsValid) {v : Variable} {name : String} :
    v ∈ g.dependentsOf name ↔ v ∈ g.declared ∧ v.dependsOn name = true := by
  rw [dependentsOf, List.mem_filter, h.wellFormed.mem_order_iff]
  refine ⟨?_, ?_⟩
  · rintro ⟨⟨hv, _⟩, hd⟩
    exact ⟨hv, hd⟩
  · rintro ⟨hv, hd⟩
    exact ⟨⟨hv, h.isMutable_of_dependsOn hv hd⟩, hd⟩

theorem Closed.dependsOn_through {g : Graph} (hc : g.Closed) {u v w : Variable}
    (hv : v ∈ g.declared) (hw : w ∈ g.declared) (hd : v.dependsOn w.name = true)
    (h : u = w ∨ w.dependsOn u.name = true) : v.dependsOn u.name = true := by
  rcases h with rfl | h
  · exact hd
  · exact hc.trans v hv w hw hd u.name h

theorem Closed.exists_bit {g : Graph} (hc : g.Closed) {d : Dial} (hd : d ∈ g.dials) {b : Symbol}
    (hb : b ∈ d.bits) : ∃ v ∈ g.declared, v.name = b.name ∧ v.isMutable = true := by
  obtain ⟨i, hi, rfl⟩ := List.mem_map.mp hb
  obtain ⟨v, hv, hn, hr⟩ := hc.bits d hd i (List.mem_range.mp hi)
  exact ⟨v, hv, hn, Variable.isMutable_of_role hr⟩

/-- **With every mutable at its default all dials are in range.** -/
theorem Closed.inRange {g : Graph} (hc : g.Closed) {s : Valuation}
    (hs : ∀ v ∈ g.declared, v.isMutable = true → s.get? v.name = some v.default) :
    ∀ d ∈ g.dials, d.InRange s := by
  intro d hd
  refine ⟨d.start, Dial.value_of_digits d.start_le ?_, d.start_le⟩
  intro i hi
  obtain ⟨v, hv, hn, hr⟩ := hc.bits d hd i hi
  rw [← hn, hs v hv (Variable.isMutable_of_role hr), Variable.default_of_role hr]

theorem Closed.inRange_congr {g : Graph} (hc : g.Closed) {s t : Valuation}
    (h : ∀ v ∈ g.declared, v.isMutable = true → t.get? v.name = s.get? v.name) {d : Dial}
    (hd : d ∈ g.dials) (hs : d.InRange s) : d.InRange t := by
  obtain ⟨n, hn, hle⟩ := hs
  refine ⟨n, (Dial.value_congr ?_).trans hn, hle⟩
  intro bit hbit
  obtain ⟨v, hv, hname, hm⟩ := hc.exists_bit hd hbit
  rw [← hname]
  exact h v hv hm

namespace WellFormed

variable {g : Graph} (hg : g.WellFormed)

include hg

/-- **Induction over a graph**: mutables first, then every variable after what it depends on. -/
theorem induction {P : Variable → Prop} (hmut : ∀ v ∈ g.declared, v.isMutable = true → P v)
    (hstep : ∀ v ∈ g.declared, v.isMutable = false →
      (∀ w ∈ g.declared, v.dependsOn w.name = true → P w) → P v) :
    ∀ v ∈ g.declared, P v := by
  have hpending : ∀ v ∈ g.order, P v := by
    refine hg.follows.induction ?_
    intro v hv hneeds
    obtain ⟨hv, hm⟩ := hg.mem_order_iff.mp hv
    refine hstep v hv hm ?_
    intro w hw hd
    rcases hneeds w.name hd with hp | ⟨x, hx, he, hP⟩
    · exact hmut w hw ((hg.name_mem_mutables_iff hw).mp hp)
    · obtain rfl := hg.eq_of_name (hg.mem_order_iff.mp hx).1 hw he
      exact hP
  intro v hv
  cases hm : v.isMutable with
  | true => exact hmut v hv hm
  | false => exact hpending v (hg.mem_order_iff.mpr ⟨hv, hm⟩)

theorem name_mem_of_dependsOn {v : Variable} (hv : v ∈ g.declared) (hm : v.isMutable = false)
    {name : String} (h : v.dependsOn name = true) : name ∈ g.names := by
  have hall : ∀ v ∈ g.order, ∀ name, v.dependsOn name = true → name ∈ g.names := by
    refine hg.follows.induction ?_
    intro v _ hneeds name hn
    rcases hneeds name hn with hp | ⟨w, hw, rfl, _⟩
    · exact (mem_names_iff hg).mpr (Or.inl hp)
    · exact (mem_names_iff hg).mpr (Or.inr (List.mem_map_of_mem hw))
  exact hall v (hg.mem_order_iff.mpr ⟨hv, hm⟩) name h

end WellFormed

/-! ### Roots settle the rest -/

variable {g : Graph} {mode mode' : Mode} {p q s t : Valuation}

theorem rule_eq_of_closure (hg : g.WellFormed) (hl : g.IsLocal) {v : Variable}
    (hv : v ∈ g.declared) (hm : v.isMutable = false) {rule : Rule} (hr : v.rule? = some rule)
    (h : ∀ w ∈ g.declared, v.dependsOn w.name = true → s.get? w.name = t.get? w.name) :
    rule s = rule t := by
  refine (hl v hv rule hr).1 s t ?_
  intro name hn
  obtain ⟨w, hw, rfl⟩ := List.mem_map.mp (hg.name_mem_of_dependsOn hv hm hn)
  exact h w hw hn

/-- **Roots settle the rest**: models that agree on the mutables and latches that a variable reads
in the end agree on the variable. -/
theorem IsModel.get?_eq_of_roots (hg : g.WellFormed) (hc : g.Closed) (hl : g.IsLocal)
    (hs : g.IsModel mode p s) (ht : g.IsModel mode' q t) :
    ∀ v ∈ g.declared, (∀ r ∈ g.declared, r.isDerived = false →
      (r = v ∨ v.dependsOn r.name = true) → s.get? r.name = t.get? r.name) →
      s.get? v.name = t.get? v.name := by
  refine hg.induction ?_ ?_
  · intro v hv hm h
    exact h v hv (Variable.isDerived_of_isMutable hm) (Or.inl rfl)
  · intro v hv hm ih h
    cases hd : v.isDerived with
    | false => exact h v hv hd (Or.inl rfl)
    | true =>
      obtain ⟨rule, hr⟩ := Variable.role_of_isDerived hd
      obtain ⟨b, hb, hrule⟩ := hs.derived v hv rule hr
      obtain ⟨b', hb', hrule'⟩ := ht.derived v hv rule hr
      -- Both give the closure the same values, so the rule sees no difference.
      have hsame : rule s = rule t := by
        refine rule_eq_of_closure hg hl hv hm (Variable.rule?_of_derived hr) ?_
        intro w hw hn
        refine ih w hw hn ?_
        intro r hrd hrn hrw
        exact h r hrd hrn (Or.inr (hc.dependsOn_through hv hw hn hrw))
      rw [hrule, hrule'] at hsame
      rw [hb, hb', Except.ok.inj hsame]

end Graph

end Chronicle
