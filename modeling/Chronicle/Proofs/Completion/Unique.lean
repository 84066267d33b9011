import Chronicle.Proofs.Search.Satisfiable

/-!
# The one completion

A completion says nothing of an order: it is a valuation of all declared variables that meets every
rule at once.  Yet there is at most one (`IsCompletion.get?_eq`).  The unknown mutables have their
defaults, and from there on every value is settled by the ones before it in the evaluation order.
The pass that goes along this order finds the completion, if there is one, and never fails
(`complete?_decides`).
-/

namespace Chronicle.Graph

variable {g : Graph} {mode : Mode} {p M N : Valuation}

theorem IsCompletion.of_same (hl : g.IsLocal) (h : g.IsCompletion mode p M)
    (hsame : ∀ name, M.get? name = N.get? name) : g.IsCompletion mode p N where
  total := fun name => hsame name ▸ h.total name
  extends_known := fun name b hb => hsame name ▸ h.extends_known name b hb
  derived := by
    intro v hv rule hr
    obtain ⟨b, hb, hrule⟩ := h.derived v hv rule hr
    have hsees := (hl v hv rule (by simp [Variable.rule?, hr])).1 M N fun name _ => hsame name
    exact ⟨b, hsame v.name ▸ hb, hsees ▸ hrule⟩
  triggered := by
    intro v hv rule persistent hr
    obtain ⟨b, fires, hb, hrule, hfires⟩ := h.triggered v hv rule persistent hr
    have hsees := (hl v hv rule (by simp [Variable.rule?, hr])).1 M N fun name _ => hsame name
    exact ⟨b, fires, hsame v.name ▸ hb, hsees ▸ hrule, hfires⟩
  in_range := by
    intro d hd
    obtain ⟨n, hn, hle⟩ := h.in_range d hd
    exact ⟨n, (Dial.value_congr fun b _ => hsame b.name).symm.trans hn, hle⟩
  default := fun v hv hm hu => hsame v.name ▸ h.default v hv hm hu

section

variable (hg : g.WellFormed) (hl : g.IsLocal)

include hg hl

/-- **There is at most one completion** of what is known. -/
theorem IsCompletion.get?_eq (hM : g.IsCompletion mode p M) (hN : g.IsCompletion mode p N)
    (name : String) : M.get? name = N.get? name := by
  obtain ⟨s, hs, hMs⟩ := complete?_of_isCompletion hg hl hM
  obtain ⟨t, ht, hNt⟩ := complete?_of_isCompletion hg hl hN
  obtain rfl : s = t := Option.some.inj (Except.ok.inj (hs.symm.trans ht))
  exact (hMs name).symm.trans (hNt name)

theorem isCompletion_iff_complete? (hp : g.IsKnowledge p) :
    g.IsCompletion mode p M ↔
      ∃ s, g.complete? mode p = .ok (some s) ∧ ∀ name, s.get? name = M.get? name := by
  refine ⟨complete?_of_isCompletion hg hl, ?_⟩
  rintro ⟨s, hs, hsame⟩
  exact (isCompletion_of_complete? hg hl hp hs).of_same hl hsame

end

/-- **The completion by defaults is the one completion.**  To complete never fails.  What comes out
answers like a valuation exactly if that is a completion of what is known; there is at most one; and
nothing comes out exactly if there is none. -/
theorem complete?_decides (hg : g.IsValid) (hl : g.IsLocal) (mode : Mode) (hp : g.IsKnowledge p) :
    ∃ r, g.complete? mode p = .ok r ∧
      (∀ M, g.IsCompletion mode p M ↔
        ∃ s, r = some s ∧ ∀ name, s.get? name = M.get? name) ∧
      (∀ M N, g.IsCompletion mode p M → g.IsCompletion mode p N →
        ∀ name, M.get? name = N.get? name) ∧
      (r = none ↔ ∀ M, ¬ g.IsCompletion mode p M) := by
  have hw := hg.wellFormed
  obtain ⟨r, hr⟩ := exists_complete? hw hl mode p
  have hiff : ∀ M, g.IsCompletion mode p M ↔
      ∃ s, r = some s ∧ ∀ name, s.get? name = M.get? name := by
    intro M
    rw [isCompletion_iff_complete? hw hl hp, hr]
    simp only [Except.ok.injEq]
  refine ⟨r, hr, hiff, fun M N hM hN => hM.get?_eq hw hl hN, ?_⟩
  cases r with
  | none =>
    refine iff_of_true rfl ?_
    intro M hM
    obtain ⟨s, hs, _⟩ := (hiff M).mp hM
    cases hs
  | some s =>
    refine iff_of_false (Option.some_ne_none s) ?_
    intro hnone
    exact hnone s ((hiff s).mpr ⟨s, rfl, fun _ => rfl⟩)

/-- An alarm that is known to be on, while the dial is left at two: that stands as long as it may
have fired before, and not otherwise. -/
theorem complete?_decides_clock :
    (∀ M, ¬ clock.IsCompletion .exact (.ofList [("alarm", true)]) M) ∧
    ∃ M, clock.IsCompletion .latched (.ofList [("alarm", true)]) M ∧
      M.get? "dial_bit1" = some true := by
  have hp : clock.IsKnowledge (.ofList [("alarm", true)]) := by decide
  refine ⟨?_, ?_⟩
  · obtain ⟨r, hr, _, _, hnone⟩ := complete?_decides clock_isValid clock_isLocal .exact hp
    rw [show clock.complete? .exact _ = .ok none by decide +kernel] at hr
    cases hr
    exact hnone.mp rfl
  · obtain ⟨r, hr, hiff, _⟩ := complete?_decides clock_isValid clock_isLocal .latched hp
    rw [show clock.complete? .latched _ = .ok (some (.ofList [("alarm", true), ("lamp", false),
      ("dial_bit0", false), ("dial_bit1", true)])) by decide +kernel] at hr
    cases hr
    exact ⟨_, (hiff _).mpr ⟨_, rfl, fun _ => rfl⟩, by decide⟩

end Chronicle.Graph
