import Chronicle.Proofs.World.Arrive
import Chronicle.Proofs.World.Reconcile

/-!
# A history is found again

Once the corrections of a history are fixed on both sides, the same history is found without a flip
(`Fits.exists_find_again`).  What is known then is the history itself: the corrections and what was
known before are all that it says (`Fits.get?_resolved_eq`), provided that no replay has overwritten
any of that.  The overrides that are left to be made complete those that have been made, so the
target is checked on what it was checked on before.

The earlier side may have learned more since, as long as that is what the target already knows of
its start.
-/

namespace Chronicle

namespace Period

variable {g : Graph}

/-- All that an antecedent has recorded is declared. -/
def RecordsDeclared (g : Graph) (p : Period) : Prop :=
  ∀ a ∈ p.antecedentList, g.IsKnowledge a.recorded

theorem recordsDeclared_of_antecedents {p q : Period} (h : q.antecedents = p.antecedents)
    (hp : p.RecordsDeclared g) : q.RecordsDeclared g := by
  intro a ha
  rw [mem_antecedentList_iff, h, ← mem_antecedentList_iff] at ha
  exact hp a ha

theorem kept_recordsDeclared (hg : g.WellFormed) : Kept g (RecordsDeclared g) where
  blank := fun _ _ h => nomatch h
  observed := fun _ _ _ _ _ h => recordsDeclared_of_antecedents rfl h
  modified := fun p v b _ _ h => recordsDeclared_of_antecedents (antecedents_modified p v.name b) h
  overridden := fun p o _ h =>
    recordsDeclared_of_antecedents (antecedents_overridden p o.entries) h
  fired := by
    intro p t _ _ _ h a ha
    obtain ⟨name, ha⟩ := mem_antecedentList_iff.mp ha
    rw [antecedents_fired, Table.get?_set] at ha
    split at ha
    · cases ha
      rw [recorded_antecedentOf]
      exact World.isKnowledge_collect hg _
    · exact h a (mem_antecedentList_iff.mpr ⟨name, ha⟩)

end Period

namespace Arrival

variable {g : Graph} {q q' : Period} {known known' merged r r' : Valuation} {a : Arrival}
  {d : Antecedent} {v : Variable} {b : Bool}

theorem isKnowledge_firingContext (hr : g.IsKnowledge r) (hd : g.IsKnowledge d.recorded)
    {context : Valuation} (h : firingContext g r d = .ok context) : g.IsKnowledge context := by
  obtain ⟨t, ht, rfl⟩ := firingContext_eq_ok h
  intro name hn
  rw [Table.contains_set, Bool.or_eq_true, decide_eq_true_eq] at hn
  rcases hn with rfl | hn
  · unfold Graph.get at ht
    split at ht
    next u hu =>
      cases ht
      exact List.mem_map_of_mem (List.mem_of_find?_eq_some hu)
    next => cases ht
  · obtain ⟨b, hb⟩ := Table.contains_iff.mp hn
    rw [Table.get?_update_entries, Valuation.get?_restrictedTo] at hb
    rcases Option.or_eq_some_iff.mp hb with hb | ⟨_, hb⟩
    · exact hd name (Table.contains_iff.mpr ⟨b, hb⟩)
    · split at hb
      · exact hr name (Table.contains_iff.mpr ⟨b, hb⟩)
      · cases hb

section

variable (hg : g.WellFormed) (hl : g.IsLocal)

include hg hl

/-- A firing sees nothing of a history but its answers. -/
theorem FiresByDefault.congr (hf : FiresByDefault g r d) (hr : g.IsKnowledge r)
    (hd : g.IsKnowledge d.recorded) (h : ∀ name, r.get? name = r'.get? name) :
    FiresByDefault g r' d := by
  obtain ⟨context, hcontext, hc⟩ := hf
  obtain ⟨t, ht, hsame⟩ := firingContext_eq_ok hcontext
  refine ⟨((r'.restrictedTo ((g.relevantTo t).map Variable.name)).update
    d.recorded.entries).set t.name true, ?_, ?_⟩
  · unfold firingContext
    rw [ht]
    rfl
  · refine hc.congr hg hl (isKnowledge_firingContext hr hd hcontext) ?_
    intro name
    simp only [hsame, Table.get?_set, Table.get?_update_entries, Valuation.get?_restrictedTo, h]

end

section

variable (hg : g.WellFormed) (hm : g.merge known (q.startState g) = some merged)
  (ha : a.Fits g merged q)

include hg ha

theorem Fits.filter_corrections (hv : v ∈ g.declared) :
    ((a.corrections merged).get? v.name).filter (isNews v) =
      (a.corrections merged).get? v.name := by
  cases hc : (a.corrections merged).get? v.name with
  | none => rfl
  | some b =>
    obtain ⟨_, _, m, hmem, he, hmut, rfl⟩ := ha.corrections_eq_some hg hc
    obtain rfl := hg.eq_of_name hmem hv he
    simp [isNews, hmut]

/-- **All that a history says** is what was known and its corrections, if no replay has overwritten
what was known. -/
theorem Fits.get?_resolved_eq
    (hshow : ∀ d ∈ q.antecedentList, ∀ m ∈ g.declared, m.isMutable = true →
      merged.get? m.name = some m.default → Shows g d m.name) (name : String) :
    a.resolved.get? name = (merged.get? name).or ((a.corrections merged).get? name) := by
  cases hmerged : merged.get? name with
  | some b =>
    rw [Option.some_or]
    refine ha.resolved_of_known hg hmerged ?_
    rintro d hd m hmem hk rfl rfl
    exact hshow d hd m hmem hk hmerged
  | none =>
    rw [Option.none_or, get?_corrections, if_neg]
    rw [Bool.not_eq_true, Table.contains_eq_false_iff]
    exact hmerged

theorem Fits.knownStart_corrected
    (hc : q.Corrected g q' (startOverrides g q (a.corrections merged))) (hv : v ∈ g.declared) :
    (q'.record v.name).knownStart =
      (if q.canOverride v.name then (a.corrections merged).get? v.name else none).or
        (q.record v.name).knownStart := by
  have hstart := Period.get?_startState_overridden (p := q)
    (o := startOverrides g q (a.corrections merged)) hg.nodup hv
  rw [← hc.eq, Period.get?_startState hg.nodup hv, Period.get?_startState hg.nodup hv,
    get?_startOverrides hg hv, ha.filter_corrections hg hv] at hstart
  exact hstart

/-- **What the target is checked on does not change**: what is left to be overridden completes what
has been. -/
theorem Fits.get?_checked_again (hq : q.Aligned g)
    (hc : q.Corrected g q' (startOverrides g q (a.corrections merged)))
    (hshow : ∀ d ∈ q.antecedentList, ∀ m ∈ g.declared, m.isMutable = true →
      merged.get? m.name = some m.default → Shows g d m.name)
    (hr : ∀ name, a.resolved.get? name = r.get? name) (hv : v ∈ g.declared) :
    ((q.currentState g).update a.overrides.entries).get? v.name =
      ((q'.currentState g).update (startOverrides g q' r).entries).get? v.name := by
  have hmade := get?_startOverrides (p := q) (r := a.corrections merged) hg hv
  rw [ha.filter_corrections hg hv] at hmade
  rw [Table.get?_update_entries, Table.get?_update_entries, ha.overrides,
    get?_startOverrides hg hv, get?_startOverrides hg hv, ← hr,
    Period.get?_currentState hg.nodup hv, Period.get?_currentState hg.nodup hv,
    hc.peek_eq hg hq hv, hmade]
  have hrecord : (startOverrides g q (a.corrections merged)).get? v.name = none →
      q'.canOverride v.name = q.canOverride v.name := by
    intro hn
    rw [hc.eq, Period.canOverride_overridden_none hn]
  cases ho : q.canOverride v.name with
  | false =>
    rw [ho, if_neg Bool.false_ne_true] at hmade
    rw [hrecord hmade, ho]
    simp
  | true =>
    rw [ho, if_pos rfl] at hmade
    rw [Period.peek_of_canOverride ho, ha.get?_resolved_eq hg hshow]
    cases hcorrection : (a.corrections merged).get? v.name with
    | none =>
      rw [hcorrection] at hmade
      rw [hrecord hmade, ho]
      simp
    | some b =>
      -- It has been fixed, so it is known and open no more.
      rw [hcorrection] at hmade
      have hnone := (ha.corrections_eq_some hg hcorrection).1
      have hfixed : q'.canOverride v.name = false := by
        rw [hc.eq, Period.canOverride_overridden_some hmade]
      have hnews := ha.filter_corrections hg hv
      rw [hcorrection] at hnews
      rw [hfixed, hnone, Option.none_or, hnews]
      simp

include hm

theorem Fits.corrections_unknown (hk : g.IsKnowledge known) (hv : v ∈ g.declared)
    (hb : (a.corrections merged).get? v.name = some b) :
    known.get? v.name = none ∧ (q.record v.name).knownStart = none := by
  have hnone := (ha.corrections_eq_some hg hb).1
  obtain ⟨hleft, hright⟩ := Graph.merge_extends hk hm
  refine ⟨?_, ?_⟩
  · cases hc : known.get? v.name with
    | none => rfl
    | some c =>
      rw [hleft _ _ hc] at hnone
      cases hnone
  · cases hc : (q.record v.name).knownStart with
    | none => rfl
    | some c =>
      rw [hright _ _ ((Period.get?_startState hg.nodup hv).trans hc)] at hnone
      cases hnone

variable (hk : g.IsKnowledge known) (hk' : g.IsKnowledge known')
  (hknown : ∀ v ∈ g.declared,
    known'.get? v.name = (known.get? v.name).or ((a.corrections merged).get? v.name) ∨
      (known.get? v.name = none ∧ (a.corrections merged).get? v.name = none ∧
        known'.get? v.name = (q'.record v.name).knownStart))
  (hc : q.Corrected g q' (startOverrides g q (a.corrections merged)))
  (hshow : ∀ d ∈ q.antecedentList, ∀ m ∈ g.declared, m.isMutable = true →
    merged.get? m.name = some m.default → Shows g d m.name)

include hk hknown hc hshow

/-- **After the corrections the two sides know the history**, and do not contradict each other. -/
theorem Fits.joint_again (hv : v ∈ g.declared) :
    ((q'.record v.name).knownStart).or (known'.get? v.name) = a.resolved.get? v.name ∧
      ∀ x y, known'.get? v.name = some x → (q'.record v.name).knownStart = some y → x = y := by
  have hresolved := ha.get?_resolved_eq hg hshow v.name
  have hstart := ha.knownStart_corrected hg hc hv
  have hmerged : merged.get? v.name = ((q.record v.name).knownStart).or (known.get? v.name) := by
    obtain ⟨_, rfl⟩ := Graph.merge_eq_some_iff.mp hm
    rw [Table.get?_update_entries, Period.get?_startState hg.nodup hv]
  cases hcorrection : (a.corrections merged).get? v.name with
  | some b =>
    obtain ⟨hnone, hnone'⟩ := ha.corrections_unknown hg hm hk hv hcorrection
    have hknown' : known'.get? v.name = some b := by
      rcases hknown v hv with h | ⟨_, h, _⟩
      · rw [h, hnone, hcorrection, Option.none_or]
      · rw [hcorrection] at h
        cases h
    rw [hcorrection, hnone', Option.or_none] at hstart
    rw [hcorrection, hmerged, hnone, hnone', Option.none_or, Option.none_or] at hresolved
    rw [hresolved, hknown', hstart]
    refine ⟨?_, ?_⟩
    · split <;> rfl
    · intro x y hx hy
      split at hy
      · exact (Option.some.inj hx).symm.trans (Option.some.inj hy)
      · cases hy
  | none =>
    rw [hcorrection, ite_self, Option.none_or] at hstart
    rw [hcorrection, hmerged, Option.or_none] at hresolved
    rw [hresolved, hstart]
    rcases hknown v hv with h | ⟨hnone, _, h⟩
    · rw [h, hcorrection, Option.or_none]
      refine ⟨rfl, ?_⟩
      intro x y hx hy
      obtain ⟨hleft, hright⟩ := Graph.merge_extends hk hm
      have hx' := hleft _ _ hx
      rw [hright _ _ ((Period.get?_startState hg.nodup hv).trans hy)] at hx'
      exact (Option.some.inj hx').symm
    · rw [h, hstart, hnone]
      refine ⟨?_, ?_⟩
      · cases (q.record v.name).knownStart <;> rfl
      · intro x y hx hy
        rw [hx] at hy
        exact Option.some.inj hy

theorem Fits.merge_again : g.merge known' (q'.startState g) =
    some (known'.update (q'.startState g).entries) := by
  refine Graph.merge_eq_some_iff.mpr ⟨?_, rfl⟩
  rw [List.eq_nil_iff_forall_not_mem]
  intro name hn
  obtain ⟨hn, x, y, hx, hy, hne⟩ := Graph.mem_conflicts_iff.mp hn
  obtain ⟨v, hv, rfl⟩ := List.mem_map.mp hn
  rw [Period.get?_startState hg.nodup hv] at hy
  exact hne ((ha.joint_again hg hm hk hknown hc hshow hv).2 x y hx hy)

include hk'

theorem Fits.get?_resolved_again (name : String) :
    a.resolved.get? name = (known'.update (q'.startState g).entries).get? name := by
  have hresolved : g.IsKnowledge a.resolved :=
    ha.isKnowledge_resolved hg
      (Graph.isKnowledge_of_merge hk (Period.isKnowledge_startState hg q) hm)
  refine hresolved.get?_eq (hk'.update (Period.isKnowledge_startState hg q')) ?_ name
  intro v hv
  rw [Table.get?_update_entries, Period.get?_startState hg.nodup hv]
  exact (ha.joint_again hg hm hk hknown hc hshow hv).1.symm

/-- **A history is found again** once its corrections are fixed on both sides. -/
theorem Fits.exists_find_again (hl : g.IsLocal) (hq : q.Aligned g)
    (hd : q.FiringsDeclared g) (hrecords : q.RecordsDeclared g) :
    ∃ merged' a', g.merge known' (q'.startState g) = some merged' ∧
      find g merged' q' = .ok (some a') := by
  have hresolved : g.IsKnowledge a.resolved :=
    ha.isKnowledge_resolved hg
      (Graph.isKnowledge_of_merge hk (Period.isKnowledge_startState hg q) hm)
  have hmerge := ha.merge_again hg hm hk hknown hc hshow
  have hjoint := ha.get?_resolved_again hg hm hk hk' hknown hc hshow
  generalize known'.update (q'.startState g).entries = merged' at hmerge hjoint
  have hbefore := (Period.isKnowledge_currentState hg q).update
    (isKnowledge_startOverrides hg q a.resolved)
  have hafter := (Period.isKnowledge_currentState hg q').update
    (isKnowledge_startOverrides hg q' merged')
  rw [← ha.overrides] at hbefore
  have hsolvable : g.Solvable .latched
      ((q'.currentState g).update (startOverrides g q' merged').entries) := by
    obtain ⟨M, hM⟩ := (Graph.solvable_iff hg hl hbefore).mp ha.known
    refine (Graph.solvable_iff hg hl hafter).mpr ⟨M, hM.congr (hbefore.get?_eq hafter ?_)⟩
    exact fun v hv => ha.get?_checked_again hg hq hc hshow hjoint hv
  have hfires : ∀ d ∈ q'.antecedentList, FiresByDefault g merged' d := by
    rw [hc.antecedents]
    intro d hmem
    exact (ha.fires d hmem).congr hg hl hresolved (hrecords d hmem) hjoint
  have hfits := fits_of_firesByDefault (.refl g merged')
    (ha.consistent_resolved.congr hg hl hresolved hjoint) hfires hsolvable
  have hdeclared : ∀ d ∈ q'.antecedentList, Declared g d := by
    rw [hc.antecedents]
    exact hd.declared hg
  rcases find_cases hg hl hdeclared merged' with ⟨a', hfind, _⟩ | ⟨_, hnone⟩
  · exact ⟨merged', a', hmerge, hfind⟩
  · exact absurd hfits (hnone _)

end

end Arrival

end Chronicle
