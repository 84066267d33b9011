import Chronicle.Proofs.Search.Solve

/-!
# The least set of flips

`flipSets` lists the sets of candidates in lexicographic order: of two sets that of the candidate
declared first comes first, and a set comes before those that extend it (`pairwise_flipSets`).  So
what the search finds is the least set of flips that leads to a consistent state
(`findConsistent_iff_leastFlips`).

Once a mutable is flipped, every set of flips of the others is one of all of them, and it is not
later for that (`exists_flips_of_flip`).  So if the least set begins with a mutable, what is left of
it is least after the flip (`LeastFlips.tail`), and to flip an earlier one leads nowhere
(`LeastFlips.not_solvable`).
-/

namespace Chronicle

namespace Graph

variable {g : Graph} {u v w : Variable} {F G : List Variable}

def Precedes (g : Graph) (u v : Variable) : Prop :=
  g.names.idxOf u.name < g.names.idxOf v.name

instance : Decidable (g.Precedes u v) := inferInstanceAs (Decidable (_ < _))

/-- The set of flips comes before the other in the order of the search. -/
abbrev Earlier (g : Graph) : List Variable → List Variable → Prop := List.Lex g.Precedes

theorem Precedes.trans (h : g.Precedes u v) (h' : g.Precedes v w) : g.Precedes u w :=
  Nat.lt_trans h h'

theorem Precedes.asymm (h : g.Precedes u v) : ¬ g.Precedes v u := Nat.lt_asymm h

theorem Earlier.asymm (h : g.Earlier F G) : ¬ g.Earlier G F :=
  List.lex_asymm (fun hr => Precedes.asymm hr) h

theorem pairwise_precedes (h : g.names.Nodup) : g.declared.Pairwise g.Precedes := by
  rw [List.pairwise_iff_getElem]
  intro i j hi hj hij
  have hname : ∀ k (hk : k < g.declared.length), g.names.idxOf g.declared[k].name = k := by
    intro k hk
    have hlen : k < g.names.length := by
      rw [names, List.length_map]
      exact hk
    have hget : g.declared[k].name = g.names[k] := by simp [names]
    rw [hget]
    exact h.idxOf_getElem k hlen
  unfold Precedes
  rw [hname i hi, hname j hj]
  exact hij

end Graph

namespace Search

variable {r : Variable → Variable → Prop} {l : List Variable}

theorem nil_notMem_tail_flipSets (l : List Variable) : [] ∉ (flipSets l).tail := by
  induction l with
  | nil => simp [flipSets]
  | cons v rest ih =>
    show [] ∉ (flipSets rest).map (v :: ·) ++ (flipSets rest).tail
    rw [List.mem_append, not_or]
    exact ⟨by simp, ih⟩

/-- **The flip sets come in lexicographic order.** -/
theorem pairwise_flipSets (h : l.Pairwise r) : (flipSets l).Pairwise (List.Lex r) := by
  induction l with
  | nil => exact List.pairwise_singleton _ _
  | cons v rest ih =>
    obtain ⟨hv, hrest⟩ := List.pairwise_cons.mp h
    have hsets := ih hrest
    have htail : ∀ F ∈ (flipSets rest).tail, ∃ w ∈ rest, ∃ G, F = w :: G := by
      intro F hF
      have hsub : F.Sublist rest := mem_flipSets.mp (List.mem_of_mem_tail hF)
      cases F with
      | nil => exact absurd hF (nil_notMem_tail_flipSets rest)
      | cons w G => exact ⟨w, hsub.subset List.mem_cons_self, G, rfl⟩
    show ([] :: ((flipSets rest).map (v :: ·) ++ (flipSets rest).tail)).Pairwise (List.Lex r)
    rw [List.pairwise_cons, List.pairwise_append, List.pairwise_map]
    refine ⟨?_, hsets.imp fun hlex => .cons hlex, hsets.sublist (List.tail_sublist _), ?_⟩
    · intro F hF
      rcases List.mem_append.mp hF with hF | hF
      · obtain ⟨G, _, rfl⟩ := List.mem_map.mp hF
        exact .nil
      · obtain ⟨w, _, G, rfl⟩ := htail F hF
        exact .nil
    · intro F hF G hG
      obtain ⟨F, _, rfl⟩ := List.mem_map.mp hF
      obtain ⟨w, hw, G, rfl⟩ := htail G hG
      exact .rel (hv w hw)

end Search

namespace Graph

open Search (flipAll flipSets)

variable {g : Graph} {mode : Mode} {p q : Valuation} {u v : Variable} {F G : List Variable}

/-- The first set of flips, in the order of the search, that leads to a consistent state. -/
structure LeastFlips (g : Graph) (mode : Mode) (p : Valuation) (F : List Variable) : Prop where
  sublist : F.Sublist (g.unknownMutables p)
  consistent : g.Consistent mode (flipAll p F)
  least : ∀ G, G.Sublist (g.unknownMutables p) → g.Earlier G F →
    ¬ g.Consistent mode (flipAll p G)

section

variable (hg : g.WellFormed)

include hg

theorem pairwise_unknownMutables (p : Valuation) :
    (g.unknownMutables p).Pairwise g.Precedes :=
  (pairwise_precedes hg.nodup).sublist (List.filter_sublist.trans List.filter_sublist)

variable (hl : g.IsLocal)

include hl

/-- **The search finds the least set of flips** that leads to a consistent state. -/
theorem findConsistent_iff_leastFlips :
    g.findConsistent mode p = .ok (some q) ↔ ∃ F, g.LeastFlips mode p F ∧ q = flipAll p F := by
  have hsorted := Search.pairwise_flipSets (pairwise_unknownMutables hg p)
  rw [findConsistent_eq_some_iff]
  refine ⟨?_, ?_⟩
  · rintro ⟨before, F, after, hsets, rfl, hc, hbefore⟩
    rw [hsets, List.pairwise_append, List.pairwise_cons] at hsorted
    refine ⟨F, ⟨Search.mem_flipSets.mp (hsets ▸ List.mem_append_cons_self), hc, ?_⟩, rfl⟩
    intro G hG hearlier hcG
    have hmem : G ∈ before ++ F :: after := hsets ▸ Search.mem_flipSets.mpr hG
    rcases List.mem_append.mp hmem with hG | hG
    · have hno := hbefore G hG
      rw [isConsistent_eq_true_iff.mpr hcG] at hno
      cases hno
    · rcases List.mem_cons.mp hG with rfl | hG
      · exact Earlier.asymm hearlier hearlier
      · exact Earlier.asymm hearlier (hsorted.2.1.1 G hG)
  · rintro ⟨F, hF, rfl⟩
    obtain ⟨before, after, hsets⟩ := List.append_of_mem (Search.mem_flipSets.mpr hF.sublist)
    rw [hsets, List.pairwise_append] at hsorted
    refine ⟨before, F, after, hsets, rfl, hF.consistent, ?_⟩
    intro G hG
    have hsub : G.Sublist (g.unknownMutables p) :=
      Search.mem_flipSets.mp (hsets ▸ List.mem_append_left _ hG)
    rcases isConsistent_cases hg hl mode (flipAll p G) with ⟨hc, _⟩ | ⟨_, hno⟩
    · exact absurd hc (hF.least G hsub (hsorted.2.2 G hG F List.mem_cons_self))
    · exact hno

end

/-! ### One flip before the others -/

theorem unknownMutables_set (p : Valuation) (name : String) (b : Bool) :
    g.unknownMutables (p.set name b) =
      (g.unknownMutables p).filter fun u => decide (name ≠ u.name) := by
  rw [unknownMutables, unknownMutables, List.filter_filter]
  refine List.filter_congr ?_
  intro u _
  rw [Table.contains_set]
  by_cases he : name = u.name <;> simp [he]

theorem get?_flipAll_of_perm (hn : (F.map Variable.name).Nodup) (h : F.Perm G) (p : Valuation)
    (name : String) : (flipAll p F).get? name = (flipAll p G).get? name := by
  have hn' : (G.map Variable.name).Nodup := (h.map Variable.name).nodup_iff.mp hn
  rw [Search.get?_flipAll hn, Search.get?_flipAll hn']
  have hfind : findIn F name = findIn G name := by
    refine Option.ext fun v => ?_
    rw [findIn_eq_some_iff hn, findIn_eq_some_iff hn', h.mem_iff]
  rw [hfind]

section

variable (hg : g.WellFormed)

include hg

theorem unknownMutables_split (hv : v ∈ g.unknownMutables p) :
    ∃ before after, g.unknownMutables p = before ++ v :: after ∧
      g.unknownMutables (Search.flip p v) = before ++ after ∧
      (∀ u ∈ before, g.Precedes u v) ∧ ∀ u ∈ after, g.Precedes v u := by
  obtain ⟨before, after, hsplit⟩ := List.append_of_mem hv
  have hsorted := pairwise_unknownMutables hg p
  have hnodup := nodup_of_sublist_unknownMutables hg (List.Sublist.refl (g.unknownMutables p))
  rw [hsplit, List.pairwise_append, List.pairwise_cons] at hsorted
  rw [hsplit, List.map_append, List.map_cons, List.nodup_middle, List.nodup_cons,
    ← List.map_append] at hnodup
  refine ⟨before, after, hsplit, ?_, ?_, hsorted.2.1.1⟩
  · have hother : ∀ u ∈ before ++ after, decide (v.name ≠ u.name) = true := by
      intro u hu
      rw [decide_eq_true_eq]
      intro he
      exact hnodup.1 (he ▸ List.mem_map_of_mem hu)
    rw [Search.flip, unknownMutables_set, hsplit, List.filter_append,
      List.filter_cons_of_neg (by simp), ← List.filter_append, List.filter_eq_self.mpr hother]
  · intro u hu
    exact hsorted.2.2 u hu v List.mem_cons_self

variable (hl : g.IsLocal)

include hl

theorem Consistent.congr (hp : g.IsKnowledge p) (h : ∀ name, p.get? name = q.get? name)
    (hc : g.Consistent mode p) : g.Consistent mode q := by
  obtain ⟨s, hs⟩ := (consistent_iff_exists_isCompletion hg hl hp).mp hc
  obtain ⟨t, ht, _⟩ := complete?_of_isCompletion hg hl (hs.congr h)
  exact ⟨t, ht⟩

/-- **A flip and then some others is a set of flips**, and it is not later than it would be without
the others that were declared before. -/
theorem exists_flips_of_flip (hp : g.IsKnowledge p) (hv : v ∈ g.unknownMutables p)
    (hG : G.Sublist (g.unknownMutables (Search.flip p v)))
    (hc : g.Consistent mode (flipAll (Search.flip p v) G)) :
    ∃ H, H.Sublist (g.unknownMutables p) ∧ g.Consistent mode (flipAll p H) ∧
      (∀ F, g.Earlier G F → g.Earlier H (v :: F)) ∧
      ∀ u F, g.Precedes v u → g.Earlier H (u :: F) := by
  obtain ⟨before, after, hsplit, hflip, hbefore, _⟩ := unknownMutables_split hg hv
  rw [hflip] at hG
  obtain ⟨G₁, G₂, rfl, hG₁, hG₂⟩ := List.sublist_append_iff.mp hG
  have hH : (G₁ ++ v :: G₂).Sublist (g.unknownMutables p) := by
    rw [hsplit]
    exact hG₁.append (hG₂.cons_cons v)
  have hn := nodup_of_sublist_unknownMutables hg hH
  refine ⟨G₁ ++ v :: G₂, hH, ?_, ?_, ?_⟩
  · have hknowledge : g.IsKnowledge (flipAll (Search.flip p v) (G₁ ++ G₂)) := by
      have hflipped : g.Flipped p (Search.flip p v) :=
        ⟨[v], List.singleton_sublist.mpr hv, rfl⟩
      exact Flipped.isKnowledge hg ⟨G₁ ++ G₂, hflip ▸ hG, rfl⟩ (hflipped.isKnowledge hg hp)
    refine hc.congr hg hl hknowledge ?_
    intro name
    exact (get?_flipAll_of_perm hn List.perm_middle p name).symm
  · intro F hF
    cases G₁ with
    | nil => exact .cons hF
    | cons x rest => exact .rel (hbefore x (hG₁.subset List.mem_cons_self))
  · intro u F hu
    cases G₁ with
    | nil => exact .rel hu
    | cons x rest => exact .rel ((hbefore x (hG₁.subset List.mem_cons_self)).trans hu)

/-- **After its first flip** the rest of the least set is least. -/
theorem LeastFlips.tail (hp : g.IsKnowledge p) (h : g.LeastFlips mode p (v :: F)) :
    g.LeastFlips mode (Search.flip p v) F where
  sublist := by
    have hv : v ∈ g.unknownMutables p := h.sublist.subset List.mem_cons_self
    obtain ⟨before, after, hsplit, hflip, hbefore, _⟩ := unknownMutables_split hg hv
    have hsorted := (pairwise_unknownMutables hg p).sublist h.sublist
    have hsub : F.Sublist (g.unknownMutables p) := (List.sublist_cons_self v F).trans h.sublist
    rw [hsplit] at hsub
    obtain ⟨F₁, F₂, rfl, hF₁, hF₂⟩ := List.sublist_append_iff.mp hsub
    rw [hflip]
    refine hF₁.append ?_
    rcases List.sublist_cons_iff.mp hF₂ with hF₂ | ⟨F₃, rfl, _⟩
    · exact hF₂
    · have hself := (List.pairwise_cons.mp hsorted).1 v (by simp)
      exact absurd hself (Nat.lt_irrefl _)
  consistent := h.consistent
  least := by
    intro G hG hearlier hc
    obtain ⟨H, hH, hcH, hbefore, _⟩ :=
      exists_flips_of_flip hg hl hp (h.sublist.subset List.mem_cons_self) hG hc
    exact h.least H hH (hbefore F hearlier) hcH

/-- **To flip an earlier mutable first** leads nowhere. -/
theorem LeastFlips.not_solvable (hp : g.IsKnowledge p) (h : g.LeastFlips mode p (v :: F))
    (hu : u ∈ g.unknownMutables p) (huv : g.Precedes u v) :
    ¬ g.Solvable mode (Search.flip p u) := by
  rintro ⟨_, ⟨G, hG, rfl⟩, hc⟩
  obtain ⟨H, hH, hcH, _, hbefore⟩ := exists_flips_of_flip hg hl hp hu hG hc
  exact h.least H hH (hbefore v F huv) hcH

end

end Graph

end Chronicle
