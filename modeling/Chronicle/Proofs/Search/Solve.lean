import Chronicle.Proofs.Search.Satisfiable

/-!
# Solutions

To solve is to search for a consistent state and to complete it.  Whatever has a model is solved by
one (`exists_solve`), and what has a completion by defaults is solved by that, because the search
looks there first (`solve_of_isCompletion`).
-/

namespace Chronicle.Graph

open Search (flipAll flipSets)

variable {g : Graph} {mode : Mode} {p q s M : Valuation}

theorem IsModel.congr (h : g.IsModel mode p s) (hpq : ∀ name, p.get? name = q.get? name) :
    g.IsModel mode q s :=
  h.of_extends (fun name _ hb => (hpq name).symm.trans hb)
    fun name b hb => h.extends_known name b ((hpq name).trans hb)

theorem IsCompletion.congr (h : g.IsCompletion mode p s)
    (hpq : ∀ name, p.get? name = q.get? name) : g.IsCompletion mode q s where
  toIsModel := h.toIsModel.congr hpq
  default := fun v hv hm hn => h.default v hv hm ((hpq v.name).trans hn)

/-- **What the search answers** is the first consistent state in the order of the flip sets. -/
theorem findConsistent_eq_some_iff :
    g.findConsistent mode p = .ok (some q) ↔
      ∃ before F after, flipSets (g.unknownMutables p) = before ++ F :: after ∧
        q = flipAll p F ∧ g.Consistent mode q ∧
        ∀ G ∈ before, g.isConsistent mode (flipAll p G) = .ok false := by
  have hsome : ∀ c, (do return if ← g.isConsistent mode c then some c else none :
      Except Error (Option Valuation)) = .ok (some q) ↔ q = c ∧ g.Consistent mode q := by
    intro c
    rw [bind_eq_ok]
    refine ⟨?_, ?_⟩
    · rintro ⟨b, hb, h⟩
      cases b with
      | false => cases h
      | true =>
        cases h
        exact ⟨rfl, isConsistent_eq_true_iff.mp hb⟩
    · rintro ⟨rfl, hc⟩
      exact ⟨true, isConsistent_eq_true_iff.mpr hc, rfl⟩
  have hnone : ∀ c, (do return if ← g.isConsistent mode c then some c else none :
      Except Error (Option Valuation)) = .ok none ↔ g.isConsistent mode c = .ok false := by
    intro c
    rw [bind_eq_ok]
    refine ⟨?_, ?_⟩
    · rintro ⟨b, hb, h⟩
      cases b with
      | false => exact hb
      | true => cases h
    · intro hc
      exact ⟨false, hc, rfl⟩
  rw [findConsistent, Search.first_eq_some_iff]
  simp only [hsome, hnone, and_assoc]

theorem findConsistent_self (h : g.Consistent mode p) :
    g.findConsistent mode p = .ok (some p) :=
  findConsistent_eq_some_iff.mpr
    ⟨[], [], _, Search.flipSets_eq_cons _, rfl, h, fun _ hG => nomatch hG⟩

theorem solve_of_findConsistent (h : g.findConsistent .latched p = .ok (some q)) :
    g.solve p = g.complete? .latched q := by
  rw [solve, h]
  rfl

section

variable (hg : g.WellFormed) (hl : g.IsLocal)

include hg hl

theorem solvable_iff (hp : g.IsKnowledge p) : g.Solvable mode p ↔ ∃ M, g.IsModel mode p M := by
  refine ⟨?_, ?_⟩
  · rintro ⟨q, hq, hc⟩
    obtain ⟨M, _, hM⟩ := exists_isModel_of_consistent hg hl hp hq hc
    exact ⟨M, hM⟩
  · rintro ⟨M, hM⟩
    have hflipped : g.Flipped p (flipAll p (g.flipsOf p M)) := ⟨_, List.filter_sublist, rfl⟩
    refine ⟨_, hflipped, ?_⟩
    rw [consistent_iff_exists_isCompletion hg hl (hflipped.isKnowledge hg hp)]
    exact ⟨M, isCompletion_flipsOf hg hM⟩

/-- **The search answers wherever there is a model.** -/
theorem exists_findConsistent_iff (hp : g.IsKnowledge p) :
    (∃ q, g.findConsistent mode p = .ok (some q)) ↔ ∃ M, g.IsModel mode p M := by
  rw [← solvable_iff hg hl hp]
  refine ⟨?_, findConsistent_of_solvable hg hl⟩
  rintro ⟨q, hq⟩
  exact solvable_of_findConsistent hq

/-- **What has a model is solved by one.** -/
theorem exists_solve (hp : g.IsKnowledge p) (hM : g.IsModel .latched p M) :
    ∃ s, g.solve p = .ok (some s) ∧ g.IsModel .latched p s := by
  obtain ⟨q, hq⟩ := (exists_findConsistent_iff hg hl hp).mpr ⟨M, hM⟩
  rcases findConsistent_cases hg hl .latched p with ⟨q', hfind, hflipped, hc⟩ | ⟨hfind, _⟩
  · obtain ⟨s, hs, hmodel⟩ := exists_isModel_of_consistent hg hl hp hflipped hc
    exact ⟨s, (solve_of_findConsistent hfind).trans hs, hmodel⟩
  · rw [hfind] at hq
    cases hq

/-- **What has a completion by defaults is solved by it.** -/
theorem solve_of_isCompletion (h : g.IsCompletion .latched p M) :
    ∃ s, g.solve p = .ok (some s) ∧ ∀ name, s.get? name = M.get? name := by
  obtain ⟨s, hs, hsame⟩ := complete?_of_isCompletion hg hl h
  exact ⟨s, (solve_of_findConsistent (findConsistent_self ⟨s, hs⟩)).trans hs, hsame⟩

end

end Chronicle.Graph
