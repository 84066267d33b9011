import Chronicle.Proofs.Search.Least

/-!
# The search without the restriction to later candidates

The plain search tries every unknown mutable at every level (`findUnpruned_eq`), so it comes to a
set of flips along every order of its members.  It finds the same state (`findUnpruned_finds`).
Where the state itself is not consistent, the plain search goes to the flips one after another, and
by induction each of them is searched for its own least set.  The flips of what is declared before
the first member of the least set lead nowhere, and that first member leads to the rest of the set.
-/

namespace Chronicle.Graph

open Search (flipAll)

variable {g : Graph} {mode : Mode} {p : Valuation} {v : Variable}

section

variable (hg : g.WellFormed)

include hg

theorem length_unknownMutables_flip (hv : v ∈ g.unknownMutables p) :
    (g.unknownMutables p).length = (g.unknownMutables (Search.flip p v)).length + 1 := by
  obtain ⟨before, after, hsplit, hflip, _, _⟩ := unknownMutables_split hg hv
  rw [hsplit, hflip, List.length_append, List.length_append, List.length_cons, Nat.add_assoc]

/-- **The plain search**: the state itself, or else what the search finds once one of the unknown
mutables is flipped, in the order in which they are declared. -/
theorem findUnpruned_eq (mode : Mode) (p : Valuation) :
    g.findUnpruned mode p = (do
      if ← g.isConsistent mode p then return some p
      (g.unknownMutables p).findSomeM? fun v => g.findUnpruned mode (Search.flip p v)) := by
  unfold findUnpruned
  cases hlength : (g.unknownMutables p).length with
  | zero =>
    rw [List.length_eq_zero_iff.mp hlength, findUnprunedWithin]
    refine bind_congr ?_
    intro b
    cases b <;> rfl
  | succ n =>
    rw [findUnprunedWithin]
    refine bind_congr ?_
    intro b
    cases b with
    | true => rfl
    | false =>
      refine Search.findSomeM?_congr ?_
      intro v hv
      have hshorter := length_unknownMutables_flip hg hv
      rw [hlength] at hshorter
      rw [Nat.succ.inj hshorter]

variable (hl : g.IsLocal)

include hl

/-- One level of the plain search, where below it each flip is searched in the order of the sets. -/
theorem findSomeM?_findConsistent (hp : g.IsKnowledge p) (hc : ¬ g.Consistent mode p) :
    ((g.unknownMutables p).findSomeM? fun v => g.findConsistent mode (Search.flip p v)) =
      g.findConsistent mode p := by
  rcases findConsistent_cases hg hl mode p with ⟨q, hfind, _, _⟩ | ⟨hfind, hnone⟩
  · obtain ⟨F, hF, rfl⟩ := (findConsistent_iff_leastFlips hg hl).mp hfind
    cases F with
    | nil => exact absurd hF.consistent hc
    | cons v F =>
      have hv : v ∈ g.unknownMutables p := hF.sublist.subset List.mem_cons_self
      obtain ⟨before, after, hsplit, _, hbefore, _⟩ := unknownMutables_split hg hv
      rw [hfind, hsplit, Search.findSomeM?_eq_some_iff]
      refine ⟨before, v, after, rfl, ?_, ?_⟩
      · exact (findConsistent_iff_leastFlips hg hl).mpr ⟨F, hF.tail hg hl hp, rfl⟩
      · intro u hu
        have hmem : u ∈ g.unknownMutables p := by
          rw [hsplit]
          exact List.mem_append_left _ hu
        have hstuck := hF.not_solvable hg hl hp hmem (hbefore u hu)
        rcases findConsistent_cases hg hl mode (Search.flip p u) with ⟨q, _, hq⟩ | ⟨hno, _⟩
        · exact absurd ⟨q, hq⟩ hstuck
        · exact hno
  · rw [hfind]
    refine Search.findSomeM?_eq_none ?_
    intro v hv
    rcases findConsistent_cases hg hl mode (Search.flip p v) with
      ⟨_, _, ⟨G, hG, rfl⟩, hcG⟩ | ⟨hno, _⟩
    · obtain ⟨H, hH, hcH, _, _⟩ := exists_flips_of_flip hg hl hp hv hG hcG
      exact absurd hcH (hnone _ ⟨H, hH, rfl⟩)
    · exact hno

theorem findUnpruned_eq_findConsistent (hp : g.IsKnowledge p) :
    g.findUnpruned mode p = g.findConsistent mode p := by
  -- The induction is on the number of mutables that are still unknown.
  induction hlength : (g.unknownMutables p).length generalizing p with
  | zero =>
    have hnone : g.unknownMutables p = [] := List.length_eq_zero_iff.mp hlength
    rw [findUnpruned_eq hg, findConsistent, hnone, Search.first, bind_assoc]
    refine bind_congr ?_
    intro b
    cases b <;> rfl
  | succ n ih =>
    rw [findUnpruned_eq hg]
    rcases isConsistent_cases hg hl mode p with ⟨hc, hyes⟩ | ⟨hc, hno⟩
    · rw [hyes, findConsistent_self hc]
      rfl
    · rw [hno, ← findSomeM?_findConsistent hg hl hp hc]
      refine Search.findSomeM?_congr ?_
      intro v hv
      have hflipped : g.Flipped p (Search.flip p v) := ⟨[v], List.singleton_sublist.mpr hv, rfl⟩
      refine ih (hflipped.isKnowledge hg hp) ?_
      have hshorter := length_unknownMutables_flip hg hv
      rw [hlength] at hshorter
      exact (Nat.succ.inj hshorter).symm

end

/-- **The restricted search finds what the plain search finds**: neither fails, both find nothing,
or both find the same state with the same values. -/
theorem findUnpruned_finds (hg : g.IsValid) (hl : g.IsLocal) (mode : Mode)
    (hp : g.IsKnowledge p) :
    g.findUnpruned mode p = (do
      if ← g.isConsistent mode p then return some p
      (g.unknownMutables p).findSomeM? fun v => g.findUnpruned mode (Search.flip p v)) ∧
    ∃ found, g.findUnpruned mode p = .ok found ∧ g.findConsistent mode p = .ok found := by
  have hw := hg.wellFormed
  have hsame : g.findUnpruned mode p = g.findConsistent mode p :=
    findUnpruned_eq_findConsistent hw hl hp
  refine ⟨findUnpruned_eq hw mode p, ?_⟩
  rcases findConsistent_cases hw hl mode p with ⟨q, hfind, _⟩ | ⟨hfind, _⟩
  · exact ⟨some q, hsame.trans hfind, hfind⟩
  · exact ⟨none, hsame.trans hfind, hfind⟩

/-- To make the alarm go off the plain search flips the lamp as well, because it comes first. -/
theorem findUnpruned_finds_clock :
    clock.findUnpruned .exact (.ofList [("alarm", true)]) = .ok (some (.ofList
      [("alarm", true), ("lamp", true), ("dial_bit0", true), ("dial_bit1", false)])) := by
  obtain ⟨_, found, hplain, hfind⟩ := findUnpruned_finds (p := .ofList [("alarm", true)])
    clock_isValid clock_isLocal .exact (by decide)
  have hclock : clock.findConsistent .exact (.ofList [("alarm", true)]) = .ok (some (.ofList
      [("alarm", true), ("lamp", true), ("dial_bit0", true), ("dial_bit1", false)])) := by
    decide +kernel
  rw [hclock] at hfind
  rw [hplain, ← hfind]

end Chronicle.Graph
