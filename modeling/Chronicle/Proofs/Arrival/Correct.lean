import Chronicle.Proofs.Arrival.Blank
import Chronicle.Proofs.Period.Ledger
import Chronicle.Proofs.Search.Least

/-!
# What a history corrects

A history that fits pins more than was known: its corrections.  All of them are mutables away from
their defaults (`Fits.corrections_eq_some`), and with them the state of the search is consistent by
default (`Fits.consistent_resolved`).  What was known before stays, apart from mutables at their
defaults which some firing does not show (`Fits.resolved_of_known`).
-/

namespace Chronicle

namespace Graph

variable {g : Graph} {p q m : Valuation} {name : String} {b : Bool}

theorem merge_extends (hp : g.IsKnowledge p) (h : g.merge p q = some m) :
    m.Extends p ∧ m.Extends q := by
  obtain ⟨hnone, rfl⟩ := merge_eq_some_iff.mp h
  refine ⟨?_, ?_⟩
  · intro name b hb
    rw [Table.get?_update_entries]
    cases hq : q.get? name with
    | none => exact hb
    | some c =>
      by_contra hne
      have hconflict : name ∈ g.conflicts p q :=
        mem_conflicts_iff.mpr ⟨hp name (Table.contains_iff.mpr ⟨b, hb⟩), b, c, hb, hq, by
          rintro rfl
          exact hne (Option.some_or)⟩
      rw [hnone] at hconflict
      cases hconflict
  · intro name b hb
    rw [Table.get?_update_entries, hb, Option.some_or]

theorem get?_merge_cases (h : g.merge p q = some m) (hb : m.get? name = some b) :
    p.get? name = some b ∨ q.get? name = some b := by
  obtain ⟨_, rfl⟩ := merge_eq_some_iff.mp h
  rw [Table.get?_update_entries] at hb
  rcases Option.or_eq_some_iff.mp hb with hb | ⟨_, hb⟩
  · exact Or.inr hb
  · exact Or.inl hb

end Graph

namespace Arrival

variable {g : Graph} {p : Period} {merged c r : Valuation} {a : Arrival} {v : Variable}
  {l : List Antecedent} {name : String} {b : Bool}

theorem Explains.consistent (h : Explains g l c r) (hc : g.Consistent .latched c) :
    g.Consistent .latched r := by
  induction h with
  | nil c => exact hc
  | cons first _ ih =>
    obtain ⟨_, _, _, _, _, _, hworks, _, rfl⟩ := first
    exact ih hworks.2

theorem Fits.consistent_resolved (h : a.Fits g merged p) : g.Consistent .latched a.resolved :=
  h.explained.consistent h.consistent

theorem get?_corrections (a : Arrival) (merged : Valuation) (name : String) :
    (a.corrections merged).get? name =
      if merged.contains name then none else a.resolved.get? name :=
  Valuation.get?_flipsFrom a.resolved merged name

section

variable (hg : g.WellFormed) (h : a.Fits g merged p)

include hg h

/-- **A history corrects mutables only**, and takes them away from their defaults. -/
theorem Fits.corrections_eq_some (hb : (a.corrections merged).get? name = some b) :
    merged.get? name = none ∧ a.resolved.get? name = some b ∧
      ∃ v ∈ g.declared, v.name = name ∧ v.isMutable = true ∧ b = !v.default := by
  rw [get?_corrections] at hb
  split at hb
  · cases hb
  next hn =>
    have hnone : merged.get? name = none :=
      Table.contains_eq_false_iff.mp (Bool.not_eq_true _ ▸ hn)
    refine ⟨hnone, hb, ?_⟩
    rcases h.get?_resolved hg name with hsame | ⟨v, hv, he, hm, hflip, _⟩
    · rw [hsame] at hb
      rcases h.flipped.get?_eq_some hg hb with hknown | ⟨v, hv, hm, _, he, hdefault⟩
      · rw [hnone] at hknown
        cases hknown
      · exact ⟨v, hv, he, hm, hdefault⟩
    · rw [hflip] at hb
      exact ⟨v, hv, he, hm, (Option.some.inj hb).symm⟩

theorem Fits.get?_resolved_of_not_mutable (hv : v ∈ g.declared) (hm : v.isMutable = false) :
    a.resolved.get? v.name = merged.get? v.name := by
  rcases h.get?_resolved hg v.name with hsame | ⟨u, hu, he, hmut, _⟩
  · rw [hsame, h.flipped.get?_eq hg hv hm]
  · rw [hg.eq_of_name hu hv he, hm] at hmut
    cases hmut

/-- **What was known stays known**, unless it is a mutable at its default that some firing does not
show. -/
theorem Fits.resolved_of_known (hb : merged.get? name = some b)
    (hshow : ∀ d ∈ p.antecedentList, ∀ m ∈ g.declared, m.isMutable = true → m.name = name →
      b = m.default → Shows g d name) : a.resolved.get? name = some b := by
  have hcandidate := h.candidate_extends hg name b hb
  rcases h.get?_resolved hg name with hsame | ⟨m, hm, he, hmut, hflip, hhidden⟩
  · rw [hsame, hcandidate]
  · by_cases hdefault : b = m.default
    · obtain ⟨d, hd, hno⟩ := hhidden (Table.contains_iff.mpr ⟨b, hcandidate⟩)
      exact absurd (hshow d hd m hm hmut he hdefault) hno
    · rw [hflip]
      cases b <;> cases hd : m.default <;> simp_all

theorem Fits.isKnowledge_resolved (hm : g.IsKnowledge merged) : g.IsKnowledge a.resolved := by
  intro name hn
  obtain ⟨b, hb⟩ := Table.contains_iff.mp hn
  rcases h.get?_resolved hg name with hsame | ⟨v, hv, rfl, _⟩
  · rw [hsame] at hb
    exact h.flipped.isKnowledge hg hm name (Table.contains_iff.mpr ⟨b, hb⟩)
  · exact List.mem_map_of_mem hv

theorem Fits.exists_model_resolved (hl : g.IsLocal) (hm : g.IsKnowledge merged) :
    ∃ R, g.IsModel .latched a.resolved R := by
  obtain ⟨R, hR⟩ := (Graph.consistent_iff_exists_isCompletion hg hl
    (h.isKnowledge_resolved hg hm)).mp h.consistent_resolved
  exact ⟨R, hR.toIsModel⟩

end

end Arrival

namespace Period

variable {g : Graph} {p : Period} {v : Variable} {o : Valuation}

/-- A mutable of which nothing is known is open. -/
theorem Aligned.canOverride_of_unknown (h : p.Aligned g) (hv : v ∈ g.declared)
    (hd : v.isDerived = false) (hp : p.peek v.name = none) : p.canOverride v.name = true := by
  have hf : (p.record v.name).modifiedSinceStart = false := by
    by_contra hf
    rw [Bool.not_eq_false] at hf
    obtain ⟨b, hb⟩ := h.valued v hv hd hf
    rw [peek_of_modified hf, hb] at hp
    cases hp
  rw [peek, Record.peek, hf, if_neg Bool.false_ne_true, Option.or_eq_none_iff] at hp
  exact canOverride_iff.mpr ⟨hp.2, hp.1⟩

/-- **What is known after open starts of mutables and latches are fixed**: what was known, and the
new starts. -/
theorem Aligned.peek_overridden (h : p.Aligned g) (ho : p.Accepts o) (hv : v ∈ g.declared)
    (hd : ∀ b, o.get? v.name = some b → v.isDerived = false) :
    (p.overridden o.entries).peek v.name = (p.peek v.name).or (o.get? v.name) := by
  cases hn : o.get? v.name with
  | none => rw [peek, record_overridden_none hn, Option.or_none, peek]
  | some b =>
    have hopen := ho v.name (Table.contains_iff.mpr ⟨b, hn⟩)
    have hf := h.unmodified_of_canOverride hv (hd b hn) hopen
    have hc := (canOverride_iff.mp hopen).2
    rw [peek_of_canOverride hopen, Option.none_or, peek, record_overridden_some hn]
    simp [Record.peek, Record.knownStart, hf, hc]

end Period

end Chronicle
