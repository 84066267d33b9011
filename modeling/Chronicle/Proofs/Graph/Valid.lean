import Chronicle.Proofs.Catalogue.Closure
import Chronicle.Proofs.Graph.Order
import Chronicle.Proofs.Valuation

/-!
# Valid graphs

A graph is valid if it was built from what definitions have made.  What the theory needs of it is
collected in `WellFormed`: names are distinct, the evaluation order lists every derived and every
triggered variable once, it lists it after all of its closure, and dials are made of declared bits.
`IsValid.wellFormed` derives this.  The graph is only asked about direct dependencies; that the
order respects closures too comes from how the catalogue makes them (`closure_step`).
-/

namespace Chronicle.Graph

/-- Built from variables and dials of one catalogue of definitions. -/
def IsValid (g : Graph) : Prop :=
  ∃ (entries : List Entry) (c : Catalogue) (operands : List Operand) (dials : List Dial),
    Catalogue.empty.defineAll entries = .ok c ∧ (∀ v, .made v ∈ operands → v ∈ c.made) ∧
      (∀ d ∈ dials, ∃ label, c.dial? label = some d) ∧ build operands dials = .ok g

theorem isValid_of_made (g : Graph) (entries : List Entry) {c : Catalogue}
    (hc : Catalogue.empty.defineAll entries = .ok c) (hmade : ∀ v ∈ g.declared, v ∈ c.made)
    (hdials : ∀ d ∈ g.dials, ∃ label, c.dial? label = some d)
    (hbuild : build (g.declared.map .made) g.dials = .ok g) : g.IsValid := by
  refine ⟨entries, c, g.declared.map .made, g.dials, hc, ?_, hdials, hbuild⟩
  intro v hv
  obtain ⟨w, hw, he⟩ := List.mem_map.mp hv
  cases he
  exact hmade v hw

theorem require_eq_ok {g : Graph} {s : Symbol} {v : Variable} (h : g.require s = .ok v) :
    v ∈ g.declared ∧ v.symbol = s := by
  unfold require at h
  split at h
  next w hw =>
    split at h
    next he =>
      cases h
      exact ⟨List.mem_of_find?_eq_some hw, he⟩
    next => cases h
  next => cases h

/-- What evaluation needs of a graph. -/
structure WellFormed (g : Graph) : Prop where
  nodup : g.names.Nodup
  order_perm : g.order.Perm (g.declared.filter fun v => !v.isMutable)
  follows : Follows (fun v name => v.dependsOn name) (· ∈ g.mutables.map Variable.name) g.order
  bits : ∀ d ∈ g.dials, ∀ s ∈ d.bits, s.name ∈ g.names

/-! ### What building checks -/

theorem declareFrom_spec {seen : List String} {operands : List Operand} {vs : List Variable}
    (h : declareFrom seen operands = .ok vs) :
    (∀ v ∈ vs, .made v ∈ operands ∧ v.name ∉ seen) ∧ (vs.map Variable.name).Nodup := by
  induction operands generalizing seen vs with
  | nil =>
    cases h
    exact ⟨fun v hv => absurd hv List.not_mem_nil, List.nodup_nil⟩
  | cons o rest ih =>
    cases o with
    | datum d => cases h
    | made w =>
      simp only [declareFrom] at h
      split at h
      · cases h
      next hw =>
        obtain ⟨ws, hws, h⟩ := bind_eq_ok.mp h
        cases h
        obtain ⟨hmem, hnodup⟩ := ih hws
        refine ⟨?_, ?_⟩
        · intro v hv
          rcases List.mem_cons.mp hv with rfl | hv
          · exact ⟨List.mem_cons_self, hw⟩
          · obtain ⟨ho, hs⟩ := hmem v hv
            exact ⟨List.mem_cons_of_mem _ ho, fun hn => hs (List.mem_cons_of_mem _ hn)⟩
        · rw [List.map_cons, List.nodup_cons]
          refine ⟨?_, hnodup⟩
          intro hn
          obtain ⟨v, hv, he⟩ := List.mem_map.mp hn
          exact (hmem v hv).2 (he ▸ List.mem_cons_self)

theorem declares_iff {vs : List Variable} (h : (vs.map Variable.name).Nodup) {s : Symbol} :
    declares vs s = true ↔ ∃ v ∈ vs, v.symbol = s := by
  unfold declares
  refine ⟨?_, ?_⟩
  · intro hd
    cases hf : findIn vs s.name with
    | none => simp [hf] at hd
    | some v =>
      rw [hf] at hd
      exact ⟨v, ((findIn_eq_some_iff h).mp hf).1, by simpa using hd⟩
  · rintro ⟨v, hv, rfl⟩
    have hf : findIn vs v.symbol.name = some v := (findIn_eq_some_iff h).mpr ⟨hv, rfl⟩
    simp [hf]

theorem declares_of_checkDependencies {vs l : List Variable} (h : checkDependencies vs l = .ok ())
    {v : Variable} (hv : v ∈ l) {s : Symbol} (hs : s ∈ v.dependencies) :
    declares vs s = true := by
  induction l with
  | nil => cases hv
  | cons w rest ih =>
    simp only [checkDependencies] at h
    cases hf : w.dependencies.find? fun s => !declares vs s with
    | some t =>
      rw [hf] at h
      cases h
    | none =>
      rw [hf] at h
      rcases List.mem_cons.mp hv with rfl | hv
      · simpa using List.find?_eq_none.mp hf s hs
      · exact ih h hv

theorem declares_of_checkDials {vs : List Variable} {l : List Dial}
    (h : checkDials vs l = .ok ()) {d : Dial} (hd : d ∈ l) {s : Symbol} (hs : s ∈ d.bits) :
    declares vs s = true := by
  induction l with
  | nil => cases hd
  | cons e rest ih =>
    simp only [checkDials] at h
    cases hf : e.bits.find? fun s => !declares vs s with
    | some t =>
      rw [hf] at h
      cases h
    | none =>
      rw [hf] at h
      rcases List.mem_cons.mp hd with rfl | hd
      · simpa using List.find?_eq_none.mp hf s hs
      · exact ih h hd

/-! ### The order respects closures -/

theorem closure_step {c : Catalogue} (hc : c.Sound) {vs : List Variable}
    (hmade : ∀ v ∈ vs, v ∈ c.made) (hn : (vs.map Variable.name).Nodup)
    (hdeps : checkDependencies vs vs = .ok ()) {v : Variable} (hv : v ∈ vs) {name : String}
    (h : v.dependsOn name = true) :
    ∃ w ∈ vs, Needs v w.name ∧ (w.name = name ∨ w.dependsOn name = true) := by
  obtain ⟨s, hs, he⟩ := List.any_eq_true.mp h
  have he : s.name = name := by simpa using he
  rcases hc.closure v (hmade v hv) s hs with hd | ⟨x, hx, hxd, hxs⟩
  · obtain ⟨w, hw, rfl⟩ := (declares_iff hn).mp (declares_of_checkDependencies hdeps hv hd)
    exact ⟨w, hw, ⟨w.symbol, hd, rfl⟩, Or.inl he⟩
  · -- The variable behind the dependency is the declared one: serial numbers tell them apart.
    obtain ⟨w, hw, hwx⟩ := (declares_iff hn).mp (declares_of_checkDependencies hdeps hv hxd)
    obtain rfl := List.inj_on_of_nodup_map hc.distinct (hmade w hw) hx hwx
    refine ⟨w, hw, ⟨w.symbol, hxd, rfl⟩, Or.inr ?_⟩
    exact List.any_eq_true.mpr ⟨s, hxs, by simpa using he⟩

/-- An order that respects direct dependencies respects closures, as long as placed variables have
placed closures. -/
theorem follows_closure {vs : List Variable} (hn : (vs.map Variable.name).Nodup)
    (hstep : ∀ v ∈ vs, ∀ name, v.dependsOn name = true →
      ∃ w ∈ vs, Needs v w.name ∧ (w.name = name ∨ w.dependsOn name = true))
    {l : List Variable} (hl : ∀ v ∈ l, v ∈ vs) {placed : String → Prop}
    (hplaced : ∀ w ∈ vs, placed w.name → ∀ name, w.dependsOn name = true → placed name)
    (h : Follows Needs placed l) : Follows (fun v name => v.dependsOn name) placed l := by
  induction l generalizing placed with
  | nil => trivial
  | cons v rest ih =>
    have hv := hl v List.mem_cons_self
    have hclosure : ∀ name, v.dependsOn name = true → placed name := by
      intro name hd
      obtain ⟨w, hw, hneed, rfl | hwd⟩ := hstep v hv name hd
      · exact h.1 _ hneed
      · exact hplaced w hw (h.1 _ hneed) name hwd
    refine ⟨hclosure, ih (fun w hw => hl w (List.mem_cons_of_mem v hw)) ?_ h.2⟩
    rintro w hw (hp | he) name hd
    · exact Or.inl (hplaced w hw hp name hd)
    · obtain rfl := List.inj_on_of_nodup_map hn hw hv he
      exact Or.inl (hclosure name hd)

theorem build_eq_ok {operands : List Operand} {dials : List Dial} {g : Graph}
    (h : build operands dials = .ok g) :
    declareFrom [] operands = .ok g.declared ∧ checkDependencies g.declared g.declared = .ok () ∧
      checkDials g.declared dials = .ok () ∧ evaluationOrder g.declared = .ok g.order ∧
      g.dials = dials := by
  obtain ⟨vs, hvs, h⟩ := bind_eq_ok.mp h
  obtain ⟨⟨⟩, hdeps, h⟩ := bind_eq_ok.mp h
  obtain ⟨⟨⟩, hdials, h⟩ := bind_eq_ok.mp h
  obtain ⟨order, horder, h⟩ := bind_eq_ok.mp h
  cases h
  exact ⟨hvs, hdeps, hdials, horder, rfl⟩

/-- **A valid graph is well formed.** -/
theorem IsValid.wellFormed {g : Graph} (h : g.IsValid) : g.WellFormed := by
  obtain ⟨entries, c, operands, dials, hc, hmade, _, hbuild⟩ := h
  have hsound := Catalogue.sound_defineAll hc
  obtain ⟨hvs, hdeps, hdials, horder, hd⟩ := build_eq_ok hbuild
  obtain ⟨hmem, hnodup⟩ := declareFrom_spec hvs
  have hdeclared : ∀ v ∈ g.declared, v ∈ c.made := fun v hv => hmade v (hmem v hv).1
  have hperm := layers_perm (Nat.le_refl _) horder
  refine ⟨hnodup, hperm, ?_, ?_⟩
  rotate_left
  · intro d hmem s hs
    have hdeclares := declares_of_checkDials hdials (hd ▸ hmem) hs
    obtain ⟨v, hv, rfl⟩ := (declares_iff hnodup).mp hdeclares
    exact List.mem_map_of_mem hv
  refine follows_closure hnodup (fun v hv name => closure_step hsound hdeclared hnodup hdeps hv)
    ?_ ?_ (layers_follows horder)
  · intro v hv
    exact List.mem_of_mem_filter (hperm.mem_iff.mp hv)
  · intro w hw hplaced name hd
    obtain ⟨v, hv, he⟩ := List.mem_map.mp hplaced
    obtain ⟨hv, hm⟩ := List.mem_filter.mp hv
    obtain rfl := List.inj_on_of_nodup_map hnodup hv hw he
    simp [Variable.dependsOn, hsound.mutable_closure v (hdeclared v hv) hm] at hd

namespace WellFormed

variable {g : Graph} (hg : g.WellFormed) {v w : Variable}

include hg

theorem eq_of_name (hv : v ∈ g.declared) (hw : w ∈ g.declared) (h : v.name = w.name) : v = w :=
  List.inj_on_of_nodup_map hg.nodup hv hw h

theorem mem_order_iff : v ∈ g.order ↔ v ∈ g.declared ∧ v.isMutable = false := by
  rw [hg.order_perm.mem_iff, List.mem_filter, Bool.not_eq_true']

theorem require_symbol (hv : v ∈ g.declared) : g.require v.symbol = .ok v := by
  have hf : g.find? v.symbol.name = some v := find?_name hg.nodup hv
  rw [require, hf]
  exact if_pos rfl

theorem order_nodup : (g.order.map Variable.name).Nodup := by
  rw [(hg.order_perm.map Variable.name).nodup_iff]
  exact (List.filter_sublist.map Variable.name).nodup hg.nodup

end WellFormed

end Chronicle.Graph
