import Chronicle.Proofs.Completion.Observe
import Chronicle.Proofs.Completion.Unique

/-!
# The order of declaration

The order in which variables are declared reaches the program in two ways.  Derived variables and
latches are evaluated in rounds, each in the order of declaration; and mutables are flipped in that
order.  Only the second one shows.  What a completion is, is said without an order, so two graphs of
the same variables have the same completions, whichever evaluation order leads there
(`Rearranged.isCompletion_iff`).  The verdict on every state that the search comes to is the same in
both, and as long as the mutables are in the same order it comes to the same states
(`findConsistent_rearranged`).
-/

namespace Chronicle.Graph

open Search (flipAll flipSets)

/-- The same variables and dials, declared in another order that leaves the mutables in theirs. -/
structure Rearranged (g g' : Graph) : Prop where
  declared : g.declared.Perm g'.declared
  mutables : g.mutables = g'.mutables
  dials : ∀ d, d ∈ g.dials ↔ d ∈ g'.dials

variable {g g' : Graph} {mode : Mode} {p q s : Valuation}

namespace Rearranged

theorem symm (h : g.Rearranged g') : g'.Rearranged g where
  declared := h.declared.symm
  mutables := h.mutables.symm
  dials := fun d => (h.dials d).symm

variable (h : g.Rearranged g')

include h

theorem mem_names_iff (name : String) : name ∈ g.names ↔ name ∈ g'.names :=
  (h.declared.map Variable.name).mem_iff

theorem isKnowledge (hp : g.IsKnowledge p) : g'.IsKnowledge p :=
  fun name hn => (h.mem_names_iff name).mp (hp name hn)

theorem isLocal (hl : g.IsLocal) : g'.IsLocal :=
  fun v hv => hl v (h.declared.mem_iff.mpr hv)

theorem isModel (hs : g.IsModel mode p s) : g'.IsModel mode p s where
  total := fun name => (hs.total name).trans (h.mem_names_iff name)
  extends_known := hs.extends_known
  derived := fun v hv => hs.derived v (h.declared.mem_iff.mpr hv)
  triggered := fun v hv => hs.triggered v (h.declared.mem_iff.mpr hv)
  in_range := fun d hd => hs.in_range d ((h.dials d).mpr hd)

theorem isCompletion (hs : g.IsCompletion mode p s) : g'.IsCompletion mode p s where
  toIsModel := h.isModel hs.toIsModel
  default := fun v hv => hs.default v (h.declared.mem_iff.mpr hv)

/-- **No order is needed to say what a completion is.** -/
theorem isCompletion_iff : g.IsCompletion mode p s ↔ g'.IsCompletion mode p s :=
  ⟨h.isCompletion, h.symm.isCompletion⟩

section

variable (hg : g.WellFormed) (hg' : g'.WellFormed) (hl : g.IsLocal)

include hg hg' hl

theorem complete?_some (hp : g.IsKnowledge p) (hs : g.complete? mode p = .ok (some s)) :
    ∃ s', g'.complete? mode p = .ok (some s') ∧ ∀ name, s.get? name = s'.get? name := by
  have hcompletes := h.isCompletion_iff.mp (isCompletion_of_complete? hg hl hp hs)
  obtain ⟨s', hs', hsame⟩ := complete?_of_isCompletion hg' (h.isLocal hl) hcompletes
  exact ⟨s', hs', fun name => (hsame name).symm⟩

/-- **Both evaluation orders come to the same**, a state or none. -/
theorem complete?_same (mode : Mode) (hp : g.IsKnowledge p) :
    ∃ r r', g.complete? mode p = .ok r ∧ g'.complete? mode p = .ok r' ∧
      r.map Table.get? = r'.map Table.get? := by
  obtain ⟨r, hr⟩ := exists_complete? hg hl mode p
  obtain ⟨r', hr'⟩ := exists_complete? hg' (h.isLocal hl) mode p
  refine ⟨r, r', hr, hr', ?_⟩
  cases r with
  | some s =>
    obtain ⟨s', hs', hsame⟩ := h.complete?_some hg hg' hl hp hr
    obtain rfl := Except.ok.inj (hr'.symm.trans hs')
    exact congrArg some (funext hsame)
  | none =>
    cases r' with
    | none => rfl
    | some s' =>
      obtain ⟨s, hs, _⟩ := h.symm.complete?_some hg' hg (h.isLocal hl) (h.isKnowledge hp) hr'
      cases hr.symm.trans hs

theorem isConsistent_eq (mode : Mode) (hp : g.IsKnowledge p) :
    g.isConsistent mode p = g'.isConsistent mode p := by
  obtain ⟨r, r', hr, hr', hsame⟩ := h.complete?_same hg hg' hl mode hp
  have hsome : r.isSome = r'.isSome := by
    rw [← Option.isSome_map (f := Table.get?), hsame, Option.isSome_map]
  rw [isConsistent, isConsistent, hr, hr', ok_bind, ok_bind, hsome]

/-- **The search comes to the same verdict at every set of flips**, and to the sets in the same
order. -/
theorem findConsistent_eq (mode : Mode) (hp : g.IsKnowledge p) :
    g.findConsistent mode p = g'.findConsistent mode p := by
  have hunknown : g'.unknownMutables p = g.unknownMutables p := by
    rw [unknownMutables, unknownMutables, h.mutables]
  rw [findConsistent, findConsistent, Search.first_eq, Search.first_eq, hunknown]
  refine Search.findSomeM?_congr ?_
  intro F hF
  have hflipped : g.Flipped p (flipAll p F) := ⟨F, Search.mem_flipSets.mp hF, rfl⟩
  rw [h.isConsistent_eq hg hg' hl mode (hflipped.isKnowledge hg hp)]

end

end Rearranged

/-- **Only the order of the mutables matters.**  In two graphs of the same variables and dials, with
the mutables in the same order, what is known has a completion by defaults in both or in neither,
and with the same values.  The search finds nothing in both, or in both the same state, and that
completes to the same values. -/
theorem findConsistent_rearranged (h : g.Rearranged g') (hg : g.IsValid) (hg' : g'.IsValid)
    (hl : g.IsLocal) (mode : Mode) (hp : g.IsKnowledge p) :
    (∃ r r', g.complete? mode p = .ok r ∧ g'.complete? mode p = .ok r' ∧
      r.map Table.get? = r'.map Table.get?) ∧
    ∃ found, g.findConsistent mode p = .ok found ∧ g'.findConsistent mode p = .ok found ∧
      ∀ q, found = some q → ∃ s s', g.complete? mode q = .ok (some s) ∧
        g'.complete? mode q = .ok (some s') ∧ ∀ name, s.get? name = s'.get? name := by
  have hw := hg.wellFormed
  have hw' := hg'.wellFormed
  refine ⟨h.complete?_same hw hw' hl mode hp, ?_⟩
  have hsame := h.findConsistent_eq hw hw' hl mode hp
  rcases findConsistent_cases hw hl mode p with ⟨q, hfind, hflipped, s, hs⟩ | ⟨hfind, _⟩
  · refine ⟨some q, hfind, hsame ▸ hfind, ?_⟩
    rintro _ ⟨⟩
    obtain ⟨s', hs', hvalues⟩ := h.complete?_some hw hw' hl (hflipped.isKnowledge hw hp) hs
    exact ⟨s, s', hs, hs', hvalues⟩
  · exact ⟨none, hfind, hsame ▸ hfind, fun q hq => nomatch hq⟩

open Kiln in
/-- The same kiln with all but the mutables declared elsewhere: `warm` is evaluated before `hot`. -/
def rearrangedKiln : Graph :=
  ⟨[ready, low, warm, high, baked, hot, door], [heat], [warm, hot, baked, ready]⟩

theorem kiln_rearranged : kiln.Rearranged rearrangedKiln where
  declared := by
    have hplaces : ([0, 1, 2, 3, 4, 5, 6] : List (Fin 7)).Perm [6, 0, 4, 1, 5, 3, 2] := by decide
    exact hplaces.map kiln.declared.get
  mutables := rfl
  dials := fun _ => Iff.rfl

theorem rearrangedKiln_isValid : rearrangedKiln.IsValid := by
  refine isValid_of_made rearrangedKiln Kiln.entries rfl ?_ ?_ rfl
  · exact fun v hv => kiln_rearranged.declared.mem_iff.mpr hv
  · intro d hd
    exact ⟨"heat", congrArg some (List.mem_singleton.mp hd).symm⟩

/-- Known to be baked, warm and ready, the kiln is found at the lower heat in both orders of
evaluation. -/
theorem findConsistent_rearranged_kiln :
    kiln.order.map Variable.name ≠ rearrangedKiln.order.map Variable.name ∧
    ∃ found, kiln.findConsistent .latched
        (.ofList [("baked", true), ("warm", true), ("ready", true)]) = .ok (some found) ∧
      rearrangedKiln.findConsistent .latched
        (.ofList [("baked", true), ("warm", true), ("ready", true)]) = .ok (some found) ∧
      found.get? "heat_bit0" = some true := by
  obtain ⟨_, found, hfind, hfind', _⟩ := findConsistent_rearranged
    (p := .ofList [("baked", true), ("warm", true), ("ready", true)]) kiln_rearranged kiln_isValid
    rearrangedKiln_isValid kiln_isLocal .latched (by decide)
  have hkiln : kiln.findConsistent .latched
      (.ofList [("baked", true), ("warm", true), ("ready", true)]) = .ok (some (.ofList
        [("baked", true), ("warm", true), ("ready", true), ("heat_bit0", true)])) := by
    decide +kernel
  obtain rfl := Except.ok.inj (hfind.symm.trans hkiln)
  exact ⟨by decide, _, hfind, hfind', by decide⟩

end Chronicle.Graph
