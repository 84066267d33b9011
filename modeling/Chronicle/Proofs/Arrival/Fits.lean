import Chronicle.Proofs.Arrival.Replay
import Chronicle.Proofs.Period.Override

/-!
# Histories that fit a period

`Fits g merged p a` says of an arrival what the search for one asks of it.  What the search answers
fits (`fits_of_find`); and it does not fail to answer, and answers nothing only if nothing fits
(`find_cases`).

The overrides of a fitting arrival can all be written (`Fits.accepts`).  A candidate whose firings
need no flips fits as it is, if the period's knowledge allows it (`fits_of_firesByDefault`).
-/

namespace Chronicle

namespace Graph

variable {g : Graph} {p q m : Valuation} {name : String}

theorem mem_conflicts_iff :
    name ∈ g.conflicts p q ↔
      name ∈ g.names ∧ ∃ a b, p.get? name = some a ∧ q.get? name = some b ∧ a ≠ b := by
  rw [conflicts, List.mem_filter]
  refine and_congr_right ?_
  intro _
  cases p.get? name <;> cases q.get? name <;> simp

theorem merge_eq_some_iff :
    g.merge p q = some m ↔ g.conflicts p q = [] ∧ m = p.update q.entries := by
  unfold merge
  by_cases h : g.conflicts p q = []
  · rw [if_pos (List.isEmpty_iff.mpr h)]
    refine ⟨?_, ?_⟩
    · rintro ⟨⟩
      exact ⟨h, rfl⟩
    · rintro ⟨_, rfl⟩
      rfl
  · rw [if_neg (mt List.isEmpty_iff.mp h)]
    refine ⟨?_, ?_⟩
    · intro hm
      cases hm
    · rintro ⟨hc, _⟩
      exact absurd hc h

end Graph

namespace Arrival

open Search (flipAll)

variable {g : Graph} {p : Period} {merged known c r : Valuation} {a : Arrival} {v : Variable}
  {name : String} {b : Bool}

/-- What the search asks of a history: a consistent state that extends the knowledge, in which all
firings of the period can be replayed, such that what they need can be written, and what the period
knows is still consistent with it. -/
structure Fits (g : Graph) (merged : Valuation) (p : Period) (a : Arrival) : Prop where
  flipped : g.Flipped merged a.candidate
  consistent : g.Consistent .latched a.candidate
  explained : Explains g p.antecedentList a.candidate a.resolved
  fires : ∀ d ∈ p.antecedentList, FiresByDefault g a.resolved d
  overrides : a.overrides = startOverrides g p a.resolved
  written : ∀ name ∈ (a.resolved.flipsFrom a.candidate).names, a.overrides.contains name = true
  known : g.Solvable .latched ((p.currentState g).update a.overrides.entries)

theorem fits_of_ofCandidate (hflipped : g.Flipped merged c) (hc : g.Consistent .latched c)
    (h : ofCandidate g p c = .ok (some a)) : a.Fits g merged p := by
  obtain ⟨o, hreplay, h⟩ := bind_eq_ok.mp h
  cases o with
  | none => cases h
  | some r =>
    obtain ⟨hexplains, hfire⟩ := explains_of_replay hreplay
    dsimp only at h
    split at h
    next hwritten =>
      obtain ⟨o, hknown, h⟩ := bind_eq_ok.mp h
      cases o with
      | none => cases h
      | some q =>
        cases h
        exact ⟨hflipped, hc, hexplains, hfire, rfl, List.all_eq_true.mp hwritten,
          Graph.solvable_of_findConsistent hknown⟩
    next => cases h

/-- A candidate whose firings need no flips fits, if the period's knowledge allows it. -/
theorem fits_of_firesByDefault (hflipped : g.Flipped merged c) (hc : g.Consistent .latched c)
    (hfire : ∀ d ∈ p.antecedentList, FiresByDefault g c d)
    (hknown : g.Solvable .latched ((p.currentState g).update (startOverrides g p c).entries)) :
    Fits g merged p ⟨c, c, startOverrides g p c⟩ where
  flipped := hflipped
  consistent := hc
  explained := explains_self hc hfire
  fires := hfire
  overrides := rfl
  written := by
    intro name hn
    rw [Table.names, Valuation.entries_flipsFrom_self] at hn
    cases hn
  known := hknown

/-- **What the search answers fits.** -/
theorem fits_of_find (h : find g merged p = .ok (some a)) : a.Fits g merged p := by
  unfold find at h
  obtain ⟨F, hF, h⟩ := Search.exists_of_first_eq_some h
  obtain ⟨b, hb, h⟩ := bind_eq_ok.mp h
  cases b with
  | false => cases h
  | true =>
    exact fits_of_ofCandidate ⟨F, hF, rfl⟩ (Graph.isConsistent_eq_true_iff.mp hb) h

section

variable (hg : g.WellFormed) (hl : g.IsLocal)

include hg hl

theorem exists_ofCandidate (h : ∀ d ∈ p.antecedentList, Declared g d) (c : Valuation) :
    ∃ o, ofCandidate g p c = .ok o := by
  obtain ⟨o, ho⟩ := exists_replay hg hl h c
  rw [ofCandidate, ho, ok_bind]
  cases o with
  | none => exact ⟨_, rfl⟩
  | some r =>
    dsimp only
    split
    · rcases Graph.findConsistent_cases hg hl .latched
        ((p.currentState g).update (startOverrides g p r).entries) with ⟨q, hq, _⟩ | ⟨hq, _⟩
      · rw [hq]
        exact ⟨_, rfl⟩
      · rw [hq]
        exact ⟨_, rfl⟩
    · exact ⟨_, rfl⟩

theorem ofCandidate_of_fits (h : a.Fits g merged p) :
    ofCandidate g p a.candidate = .ok (some a) := by
  obtain ⟨candidate, resolved, overrides⟩ := a
  obtain rfl : overrides = startOverrides g p resolved := h.overrides
  obtain ⟨q, hq⟩ := Graph.findConsistent_of_solvable hg hl h.known
  have hreplay : replay g p.antecedentList candidate = .ok (some resolved) :=
    (replay_eq_some_iff hg hl).mpr ⟨h.explained, h.fires⟩
  have hwritten : (resolved.flipsFrom candidate).names.all
      (startOverrides g p resolved).contains = true := List.all_eq_true.mpr h.written
  rw [ofCandidate, hreplay, ok_bind]
  dsimp only
  rw [if_pos hwritten, hq]
  rfl

/-- **The search for a history ends**: with one that fits, or because none does. -/
theorem find_cases (h : ∀ d ∈ p.antecedentList, Declared g d) (merged : Valuation) :
    (∃ a, find g merged p = .ok (some a) ∧ a.Fits g merged p) ∨
      (find g merged p = .ok none ∧ ∀ a : Arrival, ¬ a.Fits g merged p) := by
  have htotal : ∀ c, ∃ o, (do
      if ← g.isConsistent .latched c then ofCandidate g p c else return none :
        Except Error (Option Arrival)) = .ok o := by
    intro c
    rcases Graph.isConsistent_cases hg hl .latched c with ⟨_, hc⟩ | ⟨_, hc⟩
    · rw [hc]
      exact exists_ofCandidate hg hl h c
    · rw [hc]
      exact ⟨_, rfl⟩
  rcases Search.first_cases htotal (g.unknownMutables merged) merged with
    ⟨_, a, _, _, hfind⟩ | ⟨hfind, hnone⟩
  · exact Or.inl ⟨a, hfind, fits_of_find hfind⟩
  · refine Or.inr ⟨hfind, ?_⟩
    intro a ha
    obtain ⟨F, hF, hc⟩ := ha.flipped
    have hrejected := hnone F hF
    rw [← hc, Graph.isConsistent_eq_true_iff.mpr ha.consistent, ok_bind, if_pos rfl,
      ofCandidate_of_fits hg hl ha] at hrejected
    cases hrejected

/-- The search tries the knowledge itself first. -/
theorem find_of_fits_self (h : a.Fits g merged p) (hc : a.candidate = merged) :
    find g merged p = .ok (some a) := by
  rw [find, Search.first_eq_some_iff]
  refine ⟨[], [], _, Search.flipSets_eq_cons _, ?_, fun _ hG => nomatch hG⟩
  show (g.isConsistent .latched merged >>= fun b =>
    if b then ofCandidate g p merged else pure none) = _
  rw [← hc, Graph.isConsistent_eq_true_iff.mpr h.consistent, ok_bind, if_pos rfl]
  exact ofCandidate_of_fits hg hl h

end

/-! ### Overrides -/

section

variable (hg : g.WellFormed)

include hg

theorem get?_startOverrides (hv : v ∈ g.declared) :
    (startOverrides g p r).get? v.name =
      if p.canOverride v.name then (r.get? v.name).filter (isNews v) else none :=
  Period.get?_collect_name hg.nodup _ hv

theorem startOverrides_eq_some (h : (startOverrides g p r).get? name = some b) :
    ∃ v ∈ g.declared, v.name = name ∧ p.canOverride name = true ∧ r.get? name = some b ∧
      isNews v b = true := by
  obtain ⟨v, hv, rfl, hb⟩ := (Period.get?_collect_eq_some_iff hg.nodup).mp h
  split at hb
  next ho =>
    obtain ⟨hr, hnews⟩ := Option.filter_eq_some_iff.mp hb
    exact ⟨v, hv, rfl, ho, hr, hnews⟩
  next => cases hb

/-- **What fits can be written.** -/
theorem Fits.accepts (h : a.Fits g merged p) : p.Accepts a.overrides := by
  intro name hn
  obtain ⟨b, hb⟩ := Table.contains_iff.mp hn
  rw [h.overrides] at hb
  obtain ⟨_, _, _, ho, _⟩ := startOverrides_eq_some hg hb
  exact ho

theorem Fits.candidate_extends (h : a.Fits g merged p) : a.candidate.Extends merged :=
  h.flipped.extends hg

/-- The values that a replay gives a candidate are its own, but for mutables that some context does
not show: these it may set to the opposite of their defaults. -/
theorem Fits.get?_resolved (h : a.Fits g merged p) (name : String) :
    a.resolved.get? name = a.candidate.get? name ∨
      ∃ v ∈ g.declared, v.name = name ∧ v.isMutable = true ∧
        a.resolved.get? name = some (!v.default) ∧
        (a.candidate.contains name = true → ∃ d ∈ p.antecedentList, ¬ Shows g d name) :=
  h.explained.get?_cases hg name

end

end Arrival

end Chronicle
