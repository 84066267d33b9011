import Chronicle.Proofs.Formula.Locality
import Chronicle.Proofs.Search.FlipSets

/-!
# The search decides satisfiability

`Flipped g p q` says that `q` is `p` with some unknown mutables pinned to the opposite of their
defaults, which is all that the search ever does to a state.

A completion by defaults of a flipped state is a model of what was known before the flips
(`isModel_of_isCompletion`), and a model is a completion by defaults of the state in which it has
flipped what it does not leave at its default (`isCompletion_flipsOf`).  Since the search goes
through all sets of flips, it finds a consistent state exactly if there is a model
(`findConsistent_decides`).
-/

namespace Chronicle.Graph

open Search (flipAll flipSets)

variable {g : Graph} {mode : Mode} {p q s M : Valuation} {v : Variable} {name : String} {b : Bool}

/-- `q` is `p` with some unknown mutables pinned to the opposite of their defaults. -/
def Flipped (g : Graph) (p q : Valuation) : Prop :=
  ∃ F, F.Sublist (g.unknownMutables p) ∧ q = flipAll p F

theorem Flipped.refl (g : Graph) (p : Valuation) : g.Flipped p p :=
  ⟨[], List.nil_sublist _, rfl⟩

/-- The completion by defaults exists. -/
def Consistent (g : Graph) (mode : Mode) (q : Valuation) : Prop :=
  ∃ s, g.complete? mode q = .ok (some s)

/-- Some set of flips leads to a completion by defaults. -/
def Solvable (g : Graph) (mode : Mode) (p : Valuation) : Prop :=
  ∃ q, g.Flipped p q ∧ g.Consistent mode q

theorem isConsistent_eq_true_iff : g.isConsistent mode q = .ok true ↔ g.Consistent mode q := by
  unfold isConsistent Consistent
  rw [bind_eq_ok]
  refine ⟨?_, ?_⟩
  · rintro ⟨o, ho, h⟩
    cases o with
    | none => cases h
    | some s => exact ⟨s, ho⟩
  · rintro ⟨s, hs⟩
    exact ⟨some s, hs, rfl⟩

theorem solvable_of_findConsistent (h : g.findConsistent mode p = .ok (some q)) :
    g.Solvable mode p := by
  obtain ⟨F, hF, h⟩ := Search.exists_of_first_eq_some h
  obtain ⟨b, hb, h⟩ := bind_eq_ok.mp h
  cases b with
  | false => cases h
  | true => exact ⟨_, ⟨F, hF, rfl⟩, isConsistent_eq_true_iff.mp hb⟩

theorem mem_unknownMutables_iff :
    v ∈ g.unknownMutables p ↔ v ∈ g.declared ∧ v.isMutable = true ∧ p.get? v.name = none := by
  rw [unknownMutables, List.mem_filter, mutables, List.mem_filter, Bool.not_eq_true',
    Table.contains_eq_false_iff, and_assoc]

/-- The mutables that a model gives the opposite of their defaults, among those unknown. -/
def flipsOf (g : Graph) (p M : Valuation) : List Variable :=
  (g.unknownMutables p).filter fun v => M.get? v.name == some (!v.default)

theorem mem_flipsOf_iff :
    v ∈ g.flipsOf p M ↔ v ∈ g.unknownMutables p ∧ M.get? v.name = some (!v.default) := by
  rw [flipsOf, List.mem_filter, beq_iff_eq]

section

variable (hg : g.WellFormed)

include hg

theorem nodup_of_sublist_unknownMutables {F : List Variable}
    (hF : F.Sublist (g.unknownMutables p)) : (F.map Variable.name).Nodup :=
  ((hF.trans List.filter_sublist).map Variable.name).nodup hg.mutables_nodup

theorem Flipped.get?_eq_some (h : g.Flipped p q) (hb : q.get? name = some b) :
    p.get? name = some b ∨
      ∃ v ∈ g.declared, v.isMutable = true ∧ p.get? v.name = none ∧ v.name = name ∧
        b = !v.default := by
  obtain ⟨F, hF, rfl⟩ := h
  have hn := nodup_of_sublist_unknownMutables hg hF
  rw [Search.get?_flipAll hn, Option.or_eq_some_iff] at hb
  rcases hb with hb | ⟨_, hb⟩
  · obtain ⟨v, hf, rfl⟩ := Option.map_eq_some_iff.mp hb
    obtain ⟨hv, rfl⟩ := (findIn_eq_some_iff hn).mp hf
    obtain ⟨hd, hm, hu⟩ := mem_unknownMutables_iff.mp (hF.subset hv)
    exact Or.inr ⟨v, hd, hm, hu, rfl, rfl⟩
  · exact Or.inl hb

theorem Flipped.extends (h : g.Flipped p q) : q.Extends p := by
  obtain ⟨F, hF, rfl⟩ := h
  intro name b hb
  rw [Search.get?_flipAll_of_notMem (nodup_of_sublist_unknownMutables hg hF)]
  · exact hb
  · intro hmem
    obtain ⟨v, hv, rfl⟩ := List.mem_map.mp hmem
    rw [(mem_unknownMutables_iff.mp (hF.subset hv)).2.2] at hb
    cases hb

theorem Flipped.get?_eq (h : g.Flipped p q) (hv : v ∈ g.declared) (hm : v.isMutable = false) :
    q.get? v.name = p.get? v.name := by
  cases hq : q.get? v.name with
  | none =>
    cases hp : p.get? v.name with
    | none => rfl
    | some b =>
      rw [h.extends hg _ _ hp] at hq
      cases hq
  | some b =>
    rcases h.get?_eq_some hg hq with hp | ⟨w, hw, hwm, _, he, _⟩
    · exact hp.symm
    · rw [hg.eq_of_name hw hv he, hm] at hwm
      cases hwm

theorem Flipped.isKnowledge (h : g.Flipped p q) (hp : g.IsKnowledge p) : g.IsKnowledge q := by
  intro name hn
  obtain ⟨b, hb⟩ := Table.contains_iff.mp hn
  rcases h.get?_eq_some hg hb with hb | ⟨v, hv, _, _, rfl, _⟩
  · exact hp name (Table.contains_iff.mpr ⟨b, hb⟩)
  · exact List.mem_map_of_mem hv

/-- **A completion of a flipped state is a model** of what was known before the flips. -/
theorem isModel_of_isCompletion (h : g.Flipped p q) (hs : g.IsCompletion mode q s) :
    g.IsModel mode p s := by
  refine hs.toIsModel.transfer ?_ ?_
  · exact fun name b hb => hs.extends_known name b (h.extends hg name b hb)
  · intro _ v hv hk htrue
    rw [h.get?_eq hg hv (Variable.isMutable_of_isTriggered hk)] at htrue
    exact Table.contains_iff.mpr ⟨true, htrue⟩

/-- **A model is a completion** of the state in which it has flipped what it does not leave at its
default. -/
theorem isCompletion_flipsOf (h : g.IsModel mode p M) :
    g.IsCompletion mode (flipAll p (g.flipsOf p M)) M := by
  have hF : (g.flipsOf p M).Sublist (g.unknownMutables p) := List.filter_sublist
  have hn := nodup_of_sublist_unknownMutables hg hF
  have hflipped : g.Flipped p (flipAll p (g.flipsOf p M)) := ⟨_, hF, rfl⟩
  refine ⟨?_, ?_⟩
  · refine h.of_extends (hflipped.extends hg) ?_
    intro name b hb
    rw [Search.get?_flipAll hn, Option.or_eq_some_iff] at hb
    rcases hb with hb | ⟨_, hb⟩
    · obtain ⟨v, hf, rfl⟩ := Option.map_eq_some_iff.mp hb
      obtain ⟨hv, rfl⟩ := (findIn_eq_some_iff hn).mp hf
      exact (mem_flipsOf_iff.mp hv).2
    · exact h.extends_known name b hb
  · intro v hv hm hu
    obtain ⟨b, hb⟩ := h.exists_get? hv
    by_cases hd : b = v.default
    · rw [hb, hd]
    · have hb' : b = !v.default := Bool.eq_not.mpr hd
      have hp : p.get? v.name = none := by
        cases hp : p.get? v.name with
        | none => rfl
        | some c =>
          rw [hflipped.extends hg _ _ hp] at hu
          cases hu
      have hmem : v ∈ g.flipsOf p M :=
        mem_flipsOf_iff.mpr ⟨mem_unknownMutables_iff.mpr ⟨hv, hm, hp⟩, by rw [hb, hb']⟩
      rw [Search.get?_flipAll_of_mem hn p hmem] at hu
      cases hu

variable (hl : g.IsLocal)

include hl

theorem consistent_iff_exists_isCompletion (hq : g.IsKnowledge q) :
    g.Consistent mode q ↔ ∃ s, g.IsCompletion mode q s := by
  refine ⟨?_, ?_⟩
  · rintro ⟨s, hs⟩
    exact ⟨s, isCompletion_of_complete? hg hl hq hs⟩
  · rintro ⟨M, hM⟩
    obtain ⟨s, hs, _⟩ := complete?_of_isCompletion hg hl hM
    exact ⟨s, hs⟩

theorem isConsistent_cases (mode : Mode) (q : Valuation) :
    (g.Consistent mode q ∧ g.isConsistent mode q = .ok true) ∨
      (¬ g.Consistent mode q ∧ g.isConsistent mode q = .ok false) := by
  obtain ⟨r, hr⟩ := exists_complete? hg hl mode q
  have hc : g.isConsistent mode q = .ok r.isSome := by
    rw [isConsistent, hr]
    rfl
  cases r with
  | some s => exact Or.inl ⟨⟨s, hr⟩, hc⟩
  | none =>
    refine Or.inr ⟨?_, hc⟩
    rintro ⟨s, hs⟩
    rw [hs] at hr
    cases hr

/-- **The search ends**: it answers a consistent flipped state, or there is none. -/
theorem findConsistent_cases (mode : Mode) (p : Valuation) :
    (∃ q, g.findConsistent mode p = .ok (some q) ∧ g.Flipped p q ∧ g.Consistent mode q) ∨
      (g.findConsistent mode p = .ok none ∧ ∀ q, g.Flipped p q → ¬ g.Consistent mode q) := by
  let accept (q : Valuation) : Except Error (Option Valuation) := do
    return if ← g.isConsistent mode q then some q else none
  have hyes : ∀ q, g.Consistent mode q → accept q = .ok (some q) := by
    intro q hc
    show (g.isConsistent mode q >>= fun b => pure (if b then some q else none)) = _
    rw [isConsistent_eq_true_iff.mpr hc]
    rfl
  have hno : ∀ q, ¬ g.Consistent mode q → accept q = .ok none := by
    intro q hc
    show (g.isConsistent mode q >>= fun b => pure (if b then some q else none)) = _
    rcases isConsistent_cases hg hl mode q with ⟨h, _⟩ | ⟨_, h⟩
    · exact absurd h hc
    · rw [h]
      rfl
  have htotal : ∀ q, ∃ o, accept q = .ok o := by
    intro q
    by_cases hc : g.Consistent mode q
    · exact ⟨_, hyes q hc⟩
    · exact ⟨_, hno q hc⟩
  rcases Search.first_cases htotal (g.unknownMutables p) p with ⟨F, r, hF, hr, h⟩ | ⟨h, hall⟩
  · have hc : g.Consistent mode (flipAll p F) := by
      by_contra hc
      rw [hno _ hc] at hr
      cases hr
    rw [hyes _ hc] at hr
    cases hr
    exact Or.inl ⟨_, h, ⟨F, hF, rfl⟩, hc⟩
  · refine Or.inr ⟨h, ?_⟩
    rintro q ⟨F, hF, rfl⟩ hc
    have hnone := hall F hF
    rw [hyes _ hc] at hnone
    cases hnone

theorem findConsistent_of_solvable (h : g.Solvable mode p) :
    ∃ q, g.findConsistent mode p = .ok (some q) := by
  obtain ⟨q, hq, hc⟩ := h
  rcases findConsistent_cases hg hl mode p with ⟨r, hr, _⟩ | ⟨_, hnone⟩
  · exact ⟨r, hr⟩
  · exact absurd hc (hnone q hq)

theorem exists_isModel_of_consistent (hp : g.IsKnowledge p) (hq : g.Flipped p q)
    (hc : g.Consistent mode q) :
    ∃ M, g.complete? mode q = .ok (some M) ∧ g.IsModel mode p M := by
  obtain ⟨M, hM⟩ := hc
  have hcomplete := isCompletion_of_complete? hg hl (hq.isKnowledge hg hp) hM
  exact ⟨M, hM, isModel_of_isCompletion hg hq hcomplete⟩

end

/-- **The search decides satisfiability.**  It does not fail; it finds a state exactly if what is
known has a model; and what it finds adds nothing but mutables pinned to the opposite of their
defaults, and completes to a model. -/
theorem findConsistent_decides (hg : g.IsValid) (hl : g.IsLocal) (mode : Mode)
    (hp : g.IsKnowledge p) :
    ∃ r, g.findConsistent mode p = .ok r ∧ (r.isSome = true ↔ ∃ M, g.IsModel mode p M) ∧
      ∀ q, r = some q → q.Extends p ∧
        (∀ name b, q.get? name = some b → p.get? name = none →
          ∃ v ∈ g.declared, v.name = name ∧ v.isMutable = true ∧ b = !v.default) ∧
        ∃ M, g.complete? mode q = .ok (some M) ∧ g.IsModel mode p M := by
  have hw := hg.wellFormed
  rcases findConsistent_cases hw hl mode p with ⟨q, hfind, hq, hc⟩ | ⟨hfind, hnone⟩
  · have hmodel := exists_isModel_of_consistent hw hl hp hq hc
    refine ⟨some q, hfind, ?_, ?_⟩
    · obtain ⟨M, _, hM⟩ := hmodel
      exact ⟨fun _ => ⟨M, hM⟩, fun _ => rfl⟩
    · rintro _ ⟨⟩
      refine ⟨hq.extends hw, ?_, hmodel⟩
      intro name b hb hn
      rcases hq.get?_eq_some hw hb with hb' | ⟨v, hv, hm, _, hvn, hbv⟩
      · rw [hn] at hb'
        cases hb'
      · exact ⟨v, hv, hvn, hm, hbv⟩
  · refine ⟨none, hfind, ?_, fun q h => nomatch h⟩
    refine ⟨?_, ?_⟩
    · intro h
      cases h
    · rintro ⟨M, hM⟩
      have hflipped : g.Flipped p (flipAll p (g.flipsOf p M)) := ⟨_, List.filter_sublist, rfl⟩
      exact absurd ((consistent_iff_exists_isCompletion hw hl (hflipped.isKnowledge hw hp)).mpr
        ⟨M, isCompletion_flipsOf hw hM⟩) (hnone _ hflipped)

/-! ### A clock with a lamp -/

namespace Clock

def lamp : Variable := ⟨⟨"lamp", 0⟩, .mutable false true, [], []⟩

/-- Ranges over three numbers with two bits and starts at the last of them. -/
def dial : Dial := ⟨"dial", 2, 2, 1, Nat.le_refl 2⟩

def low : Variable := ⟨⟨"dial_bit0", 1⟩, .mutable false true, [], []⟩

def high : Variable := ⟨⟨"dial_bit1", 2⟩, .mutable true true, [], []⟩

/-- Fires when the dial reads one. -/
def alarm : Variable :=
  ⟨⟨"alarm", 3⟩, .triggered (Formula.compare dial .eq 1).rule false,
    [low.symbol, high.symbol], [low.symbol, high.symbol]⟩

def entries : List Entry :=
  [⟨"lamp", .mutable "lamp" false true, []⟩, ⟨"dial", .dial "dial" 2 2, []⟩,
    ⟨"alarm", .triggered "alarm" [.label "dial"] (Formula.compare dial .eq 1).rule false, []⟩]

end Clock

open Clock in
def clock : Graph := ⟨[lamp, low, high, alarm], [dial], [alarm]⟩

theorem clock_isValid : clock.IsValid := by
  refine isValid_of_made clock Clock.entries rfl (fun _ hv => hv) ?_ rfl
  intro d hd
  exact ⟨"dial", congrArg some (List.mem_singleton.mp hd).symm⟩

theorem clock_isLocal : clock.IsLocal := by
  apply isLocal_of_reads
  intro v hv rule hr
  simp only [clock, List.mem_cons, List.not_mem_nil, or_false] at hv
  rcases hv with rfl | rfl | rfl | rfl
  · cases hr
  · cases hr
  · cases hr
  · cases hr
    exact ⟨.compare Clock.dial .eq 1, rfl, by decide⟩

/-- The alarm can go off. -/
theorem findConsistent_decides_clock :
    ∃ M, clock.IsModel .exact (.ofList [("alarm", true)]) M := by
  obtain ⟨r, hr, hiff, _⟩ := findConsistent_decides (p := .ofList [("alarm", true)])
    clock_isValid clock_isLocal .exact (by decide)
  have hfind : clock.findConsistent .exact (.ofList [("alarm", true)]) =
      .ok (some (.ofList
        [("alarm", true), ("lamp", true), ("dial_bit0", true), ("dial_bit1", false)])) := by
    decide +kernel
  rw [hfind] at hr
  cases hr
  exact hiff.mp rfl

end Chronicle.Graph
