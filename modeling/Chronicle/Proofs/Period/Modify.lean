import Chronicle.Proofs.Completion.Pass
import Chronicle.Period

/-!
# What a modification does to a period

A modification writes the record of one name and unsettles those of its derived dependents; it
leaves the time and the antecedents.  As nothing derives from a name under that very name, the
record that was written stays as it was written (`record_modified_self`).  A dependent is unsettled
as the period says in the end, because what decides it are roots, which nothing unsettles
(`record_modified_dependent`).  All other records stay (`record_modified_other`).
-/

namespace Chronicle.Period

variable {g : Graph} {p : Period} {name : String} {b : Bool} {v : Variable}

theorem time_foldl_unsettle (l : List Variable) (p : Period) :
    (l.foldl (unsettle g) p).time = p.time := by
  induction l generalizing p with
  | nil => rfl
  | cons v rest ih => exact ih (p.unsettle g v)

theorem antecedents_foldl_unsettle (l : List Variable) (p : Period) :
    (l.foldl (unsettle g) p).antecedents = p.antecedents := by
  induction l generalizing p with
  | nil => rfl
  | cons v rest ih => exact ih (p.unsettle g v)

theorem record_foldl_unsettle_of_notMem {l : List Variable} (h : name ∉ l.map Variable.name)
    (p : Period) : (l.foldl (unsettle g) p).record name = p.record name := by
  induction l generalizing p with
  | nil => rfl
  | cons v rest ih =>
    rw [List.map_cons, List.mem_cons, not_or] at h
    rw [List.foldl_cons, ih h.2, unsettle, record_setRecord, if_neg (Ne.symm h.1)]

theorem time_modified (p : Period) (name : String) (b : Bool) :
    (p.modified g name b).time = p.time := time_foldl_unsettle _ _

theorem antecedents_modified (p : Period) (name : String) (b : Bool) :
    (p.modified g name b).antecedents = p.antecedents := antecedents_foldl_unsettle _ _

theorem time_triggered (p : Period) (t : Variable) : (p.triggered g t).time = p.time :=
  time_modified _ _ _

theorem antecedents_triggered (p : Period) (t : Variable) :
    (p.triggered g t).antecedents = p.antecedents.set t.name (p.antecedentOf g t) :=
  antecedents_modified _ _ _

theorem mem_derivedDependentsOf {name : String} :
    v ∈ g.derivedDependentsOf name ↔
      v ∈ g.order ∧ v.dependsOn name = true ∧ v.isDerived = true := by
  rw [Graph.derivedDependentsOf, List.mem_filter, Graph.dependentsOf, List.mem_filter, and_assoc]

/-- What a latch leaves in its period when it fires: a persistent one is seen at once. -/
def fired (g : Graph) (p : Period) (t : Variable) : Period :=
  if t.isPersistent then (p.triggered g t).observed t.name true else p.triggered g t

/-- What a write leaves in its period, which may observe what is written. -/
def written (g : Graph) (observe : Bool) (p : Period) (v : Variable) (b : Bool) : Period :=
  if observe then (p.modified g v.name b).observed v.name b else p.modified g v.name b

theorem time_written (observe : Bool) (p : Period) (v : Variable) (b : Bool) :
    (p.written g observe v b).time = p.time := by
  unfold written
  split
  · exact time_modified p v.name b
  · exact time_modified p v.name b

theorem time_fired (p : Period) (t : Variable) : (p.fired g t).time = p.time := by
  unfold fired
  split
  · exact time_triggered p t
  · exact time_triggered p t

theorem antecedents_fired (p : Period) (t : Variable) :
    (p.fired g t).antecedents = p.antecedents.set t.name (p.antecedentOf g t) := by
  unfold fired
  split
  · exact antecedents_triggered p t
  · exact antecedents_triggered p t

theorem recorded_antecedentOf (p : Period) (t : Variable) :
    (p.antecedentOf g t).recorded =
      collect g fun v => if t.dependsOn v.name then p.peek v.name else none := by
  rw [antecedentOf, collect, List.filterMap_map, List.filterMap_filter]
  refine congrArg Table.ofList (List.filterMap_congr ?_)
  intro v _
  split
  · rfl
  · rfl

theorem record_observed (p : Period) (name other : String) (b : Bool) :
    (p.observed name b).record other =
      if name = other then (p.record name).observed b else p.record other :=
  record_setRecord p name other _

/-- Only the records of its roots matter to whether a variable may be where it started. -/
theorem mayEqualStart_congr {q : Period}
    (h : ∀ r ∈ g.rootsOf v, q.record r.name = p.record r.name) :
    q.mayEqualStart g v = p.mayEqualStart g v := by
  unfold mayEqualStart
  rw [Bool.eq_iff_iff, List.all_eq_true, List.all_eq_true]
  refine forall₂_congr ?_
  intro r hr
  rw [assumedStart, assumedStart, peek, peek, h r hr]

section

variable (hg : g.WellFormed)

include hg

/-- **What is written stays**: no modification unsettles its own record. -/
theorem record_modified_self (hv : v ∈ g.declared) (hd : v.isDerived = false) :
    (p.modified g v.name b).record v.name = (p.record v.name).modified b := by
  have hn : v.name ∉ (g.derivedDependentsOf v.name).map Variable.name := by
    intro h
    obtain ⟨w, hw, he⟩ := List.mem_map.mp h
    obtain ⟨hw, _, hwd⟩ := mem_derivedDependentsOf.mp hw
    obtain rfl := hg.eq_of_name (hg.mem_order_iff.mp hw).1 hv he
    rw [hd] at hwd
    cases hwd
  rw [modified, record_foldl_unsettle_of_notMem hn, record_setRecord, if_pos rfl]

theorem peek_modified_self (hv : v ∈ g.declared) (hd : v.isDerived = false) :
    (p.modified g v.name b).peek v.name = some b := by
  rw [peek, record_modified_self hg hv hd]
  rfl

theorem record_foldl_unsettle_of_not_derived {l : List Variable}
    (hl : ∀ d ∈ l, d ∈ g.declared ∧ d.isDerived = true) (hv : v ∈ g.declared)
    (hd : v.isDerived = false) (p : Period) :
    (l.foldl (unsettle g) p).record v.name = p.record v.name := by
  refine record_foldl_unsettle_of_notMem ?_ p
  intro h
  obtain ⟨d, hmem, he⟩ := List.mem_map.mp h
  obtain ⟨hdec, hder⟩ := hl d hmem
  rw [hg.eq_of_name hdec hv he, hd] at hder
  cases hder

theorem record_foldl_unsettle {l : List Variable}
    (hl : ∀ d ∈ l, d ∈ g.declared ∧ d.isDerived = true) (hn : (l.map Variable.name).Nodup)
    (hv : v ∈ l) (p : Period) :
    (l.foldl (unsettle g) p).record v.name =
      (p.record v.name).unsettled (p.mayEqualStart g v) := by
  induction l generalizing p with
  | nil => cases hv
  | cons d rest ih =>
    rw [List.map_cons, List.nodup_cons] at hn
    have hrest : ∀ d ∈ rest, d ∈ g.declared ∧ d.isDerived = true :=
      fun w hw => hl w (List.mem_cons_of_mem d hw)
    rw [List.foldl_cons]
    rcases List.mem_cons.mp hv with rfl | hv
    · rw [record_foldl_unsettle_of_notMem hn.1, unsettle, record_setRecord, if_pos rfl]
    · have hne : d.name ≠ v.name := fun he => hn.1 (he ▸ List.mem_map_of_mem hv)
      have hroots : (p.unsettle g d).mayEqualStart g v = p.mayEqualStart g v := by
        refine mayEqualStart_congr ?_
        intro r hr
        obtain ⟨hr, hroot⟩ := List.mem_filter.mp hr
        have hrd : r.isDerived = false := by simpa using (Bool.and_eq_true_iff.mp hroot).2
        exact record_foldl_unsettle_of_not_derived hg (l := [d])
          (fun w hw => hl w (List.mem_singleton.mp hw ▸ List.mem_cons_self)) hr hrd p
      rw [ih hrest hn.2 hv, hroots, unsettle, record_setRecord, if_neg hne]

variable {u : Variable}

theorem derived_of_mem_derivedDependentsOf (h : u ∈ g.derivedDependentsOf name) :
    u ∈ g.declared ∧ u.isDerived = true := by
  obtain ⟨ho, _, hd⟩ := mem_derivedDependentsOf.mp h
  exact ⟨(hg.mem_order_iff.mp ho).1, hd⟩

/-- **A dependent is unsettled**, and whether it may be where it started the period itself says
afterwards. -/
theorem record_modified_dependent (hv : v ∈ g.declared) (hd : v.isDerived = false)
    (hu : u ∈ g.derivedDependentsOf v.name) :
    (p.modified g v.name b).record u.name =
      (p.record u.name).unsettled ((p.modified g v.name b).mayEqualStart g u) := by
  have hall : ∀ d ∈ g.derivedDependentsOf v.name, d ∈ g.declared ∧ d.isDerived = true :=
    fun d hmem => derived_of_mem_derivedDependentsOf hg hmem
  have hnodup : ((g.derivedDependentsOf v.name).map Variable.name).Nodup :=
    ((List.filter_sublist.trans List.filter_sublist).map Variable.name).nodup hg.order_nodup
  have hroots : (p.modified g v.name b).mayEqualStart g u =
      (p.setRecord v.name ((p.record v.name).modified b)).mayEqualStart g u := by
    refine mayEqualStart_congr ?_
    intro r hr
    obtain ⟨hr, hroot⟩ := List.mem_filter.mp hr
    have hrd : r.isDerived = false := by simpa using (Bool.and_eq_true_iff.mp hroot).2
    exact record_foldl_unsettle_of_not_derived hg hall hr hrd _
  have hne : v.name ≠ u.name := by
    intro he
    obtain ⟨hmem, hder⟩ := hall u hu
    rw [hg.eq_of_name hv hmem he, hder] at hd
    cases hd
  rw [hroots, modified, record_foldl_unsettle hg hall hnodup hu, record_setRecord, if_neg hne]

/-- **All other records stay.** -/
theorem record_modified_other (hu : u ∈ g.declared) (hne : v.name ≠ u.name)
    (hd : u.isDerived = true → u.dependsOn v.name = false) :
    (p.modified g v.name b).record u.name = p.record u.name := by
  have hn : u.name ∉ (g.derivedDependentsOf v.name).map Variable.name := by
    intro h
    obtain ⟨w, hw, he⟩ := List.mem_map.mp h
    obtain ⟨ho, hdep, hder⟩ := mem_derivedDependentsOf.mp hw
    obtain rfl := hg.eq_of_name (hg.mem_order_iff.mp ho).1 hu he
    rw [hd hder] at hdep
    cases hdep
  rw [modified, record_foldl_unsettle_of_notMem hn, record_setRecord, if_neg hne]

/-- What a modification of a mutable or a latch does to the record of any declared variable. -/
theorem record_modified_cases (hv : v ∈ g.declared) (hd : v.isDerived = false)
    (hu : u ∈ g.declared) :
    (u = v ∧ (p.modified g v.name b).record u.name = (p.record u.name).modified b) ∨
      (u.isDerived = true ∧ u.dependsOn v.name = true ∧
        (p.modified g v.name b).record u.name =
          (p.record u.name).unsettled ((p.modified g v.name b).mayEqualStart g u)) ∨
      (u ≠ v ∧ (u.isDerived = true → u.dependsOn v.name = false) ∧
        (p.modified g v.name b).record u.name = p.record u.name) := by
  by_cases hne : u = v
  · subst hne
    exact Or.inl ⟨rfl, record_modified_self hg hu hd⟩
  · by_cases hdep : u.isDerived = true ∧ u.dependsOn v.name = true
    · have hm : u.isMutable = false := by
        by_contra hm
        rw [Bool.not_eq_false] at hm
        rw [Variable.isDerived_of_isMutable hm] at hdep
        cases hdep.1
      have hmem : u ∈ g.derivedDependentsOf v.name :=
        mem_derivedDependentsOf.mpr ⟨hg.mem_order_iff.mpr ⟨hu, hm⟩, hdep.2, hdep.1⟩
      exact Or.inr (Or.inl ⟨hdep.1, hdep.2, record_modified_dependent hg hv hd hmem⟩)
    · have hother : u.isDerived = true → u.dependsOn v.name = false := by
        intro h
        simpa [h] using hdep
      refine Or.inr (Or.inr ⟨hne, hother, record_modified_other hg hu ?_ hother⟩)
      intro he
      exact hne (hg.eq_of_name hu hv he.symm)

theorem peek_triggered_self (hv : v ∈ g.declared) (hd : v.isDerived = false) :
    (p.triggered g v).peek v.name = some true :=
  peek_modified_self hg hv hd

end

end Chronicle.Period
