import Chronicle.Proofs.Search.Least

/-!
# To learn what one would have said

What is known resolves to a model: the one that the least set of flips leads to (`Resolves`).  If a
value of that model becomes known, it is a model of the new knowledge, but the search may come to
another one.  A mutable that has been flipped after another one may have been a mere consequence of
that: once it is pinned, the first flip may be needless.  And a latch that reads true asks for a
reason only as long as it is not recorded.  These are the only two cases (`Harmless`): everything
else can be learned and the knowledge resolves to the same model (`Resolves.set`).

The reason is that a set of flips that is consistent with more knowledge is consistent with less
(`IsCompletion.of_set`), so that the least set stays least as long as it is still there.
-/

namespace Chronicle.Graph

open Search (flipAll)

variable {g : Graph} {p q s M : Valuation} {u v : Variable} {b : Bool} {F G : List Variable}

/-- What is known resolves to the model that the least set of flips leads to. -/
structure Resolves (g : Graph) (p M : Valuation) : Prop where
  model : g.IsModel .latched p M
  least : g.LeastFlips .latched p (g.flipsOf p M)

/-- To learn the value of the variable in a model leaves the search where it is.  The variable is
not flipped, or first of all; and if it is a latch that reads true, then nothing is flipped or it is
known already. -/
structure Harmless (g : Graph) (p M : Valuation) (v : Variable) : Prop where
  flip : v ∉ (g.flipsOf p M).tail
  latch : v.isTriggered = true → p.get? v.name = none → M.get? v.name = some true →
    g.flipsOf p M = []

theorem flipsOf_set (p M : Valuation) (name : String) (b : Bool) :
    g.flipsOf (p.set name b) M = (g.flipsOf p M).filter fun u => decide (name ≠ u.name) := by
  rw [flipsOf, flipsOf, unknownMutables_set, List.filter_filter, List.filter_filter]
  refine List.filter_congr ?_
  intro u _
  exact Bool.and_comm _ _

theorem IsKnowledge.set (hp : g.IsKnowledge p) (hv : v ∈ g.declared) (b : Bool) :
    g.IsKnowledge (p.set v.name b) := by
  intro name hn
  rw [Table.contains_set, Bool.or_eq_true, decide_eq_true_eq] at hn
  rcases hn with rfl | hn
  · exact List.mem_map_of_mem hv
  · exact hp name hn

theorem get?_flipAll_set (hn : (F.map Variable.name).Nodup) {name : String}
    (hout : name ∉ F.map Variable.name) (p : Valuation) (b : Bool) (other : String) :
    (flipAll (p.set name b) F).get? other = ((flipAll p F).set name b).get? other := by
  rw [Table.get?_set]
  split
  next he => rw [← he, Search.get?_flipAll_of_notMem hn _ hout, Table.get?_set_self]
  next hne => rw [Search.get?_flipAll hn, Search.get?_flipAll hn, Table.get?_set_of_ne _ hne]

theorem unknownMutables_congr (h : ∀ name, p.get? name = q.get? name) :
    g.unknownMutables p = g.unknownMutables q := by
  refine List.filter_congr ?_
  intro u _
  rw [Table.contains, Table.contains, h]

theorem flipsOf_congr (h : ∀ name, p.get? name = q.get? name) :
    g.flipsOf p M = g.flipsOf q M := by
  rw [flipsOf, flipsOf, unknownMutables_congr h]

theorem Harmless.congr (hpq : ∀ name, p.get? name = q.get? name) (h : g.Harmless p M v) :
    g.Harmless q M v where
  flip := flipsOf_congr hpq ▸ h.flip
  latch := by
    rw [← flipsOf_congr hpq, ← hpq]
    exact h.latch

/-- What can be learned after something else has been learned could be learned before. -/
theorem Harmless.set (h : g.Harmless p M u) (name : String) (b : Bool) :
    g.Harmless (p.set name b) M u where
  flip := by
    rw [flipsOf_set]
    intro hu
    refine h.flip ?_
    cases hF : g.flipsOf p M with
    | nil =>
      rw [hF] at hu
      cases hu
    | cons v rest =>
      rw [hF, List.filter_cons] at hu
      split at hu
      · exact List.mem_of_mem_filter hu
      · exact List.mem_of_mem_filter (List.mem_of_mem_tail hu)
  latch := by
    intro ht hu htrue
    rw [Table.get?_set] at hu
    split at hu
    · cases hu
    · rw [flipsOf_set, h.latch ht hu htrue, List.filter_nil]

/-! ### Models of more and of less -/

/-- **A model stays a model** when one of its values becomes known. -/
theorem IsModel.set {name : String} (h : g.IsModel .latched p M) (hb : M.get? name = some b) :
    g.IsModel .latched (p.set name b) M := by
  refine h.transfer ?_ ?_
  · intro other c hc
    rw [Table.get?_set] at hc
    split at hc
    next he =>
      cases hc
      rw [← he]
      exact hb
    next => exact h.extends_known other c hc
  · intro _ u _ _ htrue
    rw [Table.contains_set, Table.contains_iff.mpr ⟨true, htrue⟩, Bool.or_true]

section

variable (hg : g.WellFormed)

include hg

/-- **A completion of more is one of less**, if what is left out is not a mutable away from its
default and not a latch recorded true. -/
theorem IsCompletion.of_set (hv : v ∈ g.declared) (hunknown : q.get? v.name = none)
    (hdefault : v.isMutable = true → b = v.default) (hlatch : v.isTriggered = true → b = false)
    (h : g.IsCompletion .latched (q.set v.name b) s) : g.IsCompletion .latched q s := by
  have hself : s.get? v.name = some b := h.extends_known v.name b (Table.get?_set_self _ _ _)
  have hother : ∀ {u : Variable}, u ∈ g.declared → u ≠ v →
      (q.set v.name b).get? u.name = q.get? u.name := by
    intro u hu hne
    exact Table.get?_set_of_ne q (fun he => hne (hg.eq_of_name hu hv he.symm)) b
  refine ⟨h.toIsModel.transfer ?_ ?_, ?_⟩
  · intro name c hc
    refine h.extends_known name c ?_
    rw [Table.get?_set, if_neg]
    · exact hc
    · rintro rfl
      rw [hunknown] at hc
      cases hc
  · intro _ u hu hk htrue
    by_cases hne : u = v
    · subst hne
      rw [Table.get?_set_self, hlatch hk] at htrue
      cases htrue
    · exact Table.contains_iff.mpr ⟨true, (hother hu hne).symm.trans htrue⟩
  · intro u hu hm hq
    by_cases hne : u = v
    · subst hne
      rw [hself, hdefault hm]
    · exact h.default u hu hm ((hother hu hne).trans hq)

theorem get?_flipAll_of_unflipped (hF : F.Sublist (g.unknownMutables p)) (hu : u ∈ g.declared)
    (hout : u ∉ F) : (flipAll p F).get? u.name = p.get? u.name := by
  refine Search.get?_flipAll_of_notMem (nodup_of_sublist_unknownMutables hg hF) p ?_
  intro hin
  obtain ⟨w, hw, he⟩ := List.mem_map.mp hin
  have hwdec := (mem_unknownMutables_iff.mp (hF.subset hw)).1
  exact hout (hg.eq_of_name hwdec hu he ▸ hw)

theorem flipsOf_of_isCompletion (hF : F.Sublist (g.unknownMutables p))
    (h : g.IsCompletion .latched (flipAll p F) s) : g.flipsOf p s = F := by
  have hn := nodup_of_sublist_unknownMutables hg hF
  have hflips : (g.flipsOf p s).Sublist (g.unknownMutables p) := List.filter_sublist
  have hmem : ∀ u, u ∈ g.flipsOf p s ↔ u ∈ F := by
    intro u
    rw [mem_flipsOf_iff]
    refine ⟨?_, ?_⟩
    · rintro ⟨hu, hs⟩
      obtain ⟨hdec, hm, hunknown⟩ := mem_unknownMutables_iff.mp hu
      by_contra hno
      have hdefault := h.default u hdec hm
        ((get?_flipAll_of_unflipped hg hF hdec hno).trans hunknown)
      rw [hdefault] at hs
      cases hb : u.default <;> simp [hb] at hs
    · intro hu
      exact ⟨hF.subset hu, h.extends_known _ _ (Search.get?_flipAll_of_mem hn p hu)⟩
  have hsorted := pairwise_unknownMutables hg p
  have hantisymm : ∀ u v, u ∈ g.flipsOf p s → v ∈ F → g.Precedes u v → g.Precedes v u → u = v :=
    fun _ _ _ _ huv hvu => absurd hvu huv.asymm
  refine List.Perm.eq_of_pairwise hantisymm (hsorted.sublist hflips) (hsorted.sublist hF) ?_
  have hn' := nodup_of_sublist_unknownMutables hg hflips
  exact (List.perm_ext_iff_of_nodup hn'.of_map hn.of_map).mpr hmem

theorem flipsOf_set_of_notMem (hv : v ∈ g.declared) (hout : v ∉ g.flipsOf p M) :
    g.flipsOf (p.set v.name b) M = g.flipsOf p M := by
  rw [flipsOf_set, List.filter_eq_self]
  intro u hu
  rw [decide_eq_true_eq]
  intro he
  have hdec := (mem_unknownMutables_iff.mp (mem_flipsOf_iff.mp hu).1).1
  exact hout (hg.eq_of_name hv hdec he ▸ hu)

theorem flipsOf_set_first (hF : g.flipsOf p M = v :: F) :
    g.flipsOf (p.set v.name b) M = F := by
  have hn := nodup_of_sublist_unknownMutables hg (F := g.flipsOf p M) List.filter_sublist
  rw [hF, List.map_cons, List.nodup_cons] at hn
  rw [flipsOf_set, hF, List.filter_cons_of_neg (by simp), List.filter_eq_self]
  intro u hu
  rw [decide_eq_true_eq]
  intro he
  exact hn.1 (he ▸ List.mem_map_of_mem hu)

variable (hl : g.IsLocal)

include hl

/-! ### What the knowledge resolves to -/

theorem resolves_of_solve (hp : g.IsKnowledge p) (h : g.solve p = .ok (some s)) :
    g.Resolves p s := by
  obtain ⟨found, hfind, h⟩ := bind_eq_ok.mp h
  cases found with
  | none => cases h
  | some q =>
    obtain ⟨F, hF, rfl⟩ := (findConsistent_iff_leastFlips hg hl).mp hfind
    have hflipped : g.Flipped p (flipAll p F) := ⟨F, hF.sublist, rfl⟩
    have hcompletion := isCompletion_of_complete? hg hl (hflipped.isKnowledge hg hp) h
    refine ⟨isModel_of_isCompletion hg hflipped hcompletion, ?_⟩
    rw [flipsOf_of_isCompletion hg hF.sublist hcompletion]
    exact hF

/-- **The solution has the values of the model** that the knowledge resolves to. -/
theorem Resolves.exists_solve (h : g.Resolves p M) :
    ∃ s, g.solve p = .ok (some s) ∧ ∀ name, s.get? name = M.get? name := by
  have hfind : g.findConsistent .latched p = .ok (some (flipAll p (g.flipsOf p M))) :=
    (findConsistent_iff_leastFlips hg hl).mpr ⟨_, h.least, rfl⟩
  obtain ⟨s, hs, hsame⟩ := complete?_of_isCompletion hg hl (isCompletion_flipsOf hg h.model)
  exact ⟨s, (solve_of_findConsistent hfind).trans hs, hsame⟩

theorem Resolves.congr (hp : g.IsKnowledge p) (hpq : ∀ name, p.get? name = q.get? name)
    (h : g.Resolves p M) : g.Resolves q M := by
  have hunknown : g.unknownMutables q = g.unknownMutables p := (unknownMutables_congr hpq).symm
  have hflipAll : ∀ {G : List Variable}, G.Sublist (g.unknownMutables p) → ∀ name,
      (flipAll p G).get? name = (flipAll q G).get? name := by
    intro G hG name
    have hn := nodup_of_sublist_unknownMutables hg hG
    rw [Search.get?_flipAll hn, Search.get?_flipAll hn, hpq]
  have hq : g.IsKnowledge q := by
    intro name hc
    rw [Table.contains, ← hpq] at hc
    exact hp name hc
  refine ⟨h.model.congr hpq, ?_⟩
  rw [← flipsOf_congr hpq]
  refine ⟨hunknown ▸ h.least.sublist, ?_, ?_⟩
  · have hsub := h.least.sublist
    exact h.least.consistent.congr hg hl (Flipped.isKnowledge hg ⟨_, hsub, rfl⟩ hp)
      (hflipAll hsub)
  · intro G hG hearlier hc
    rw [hunknown] at hG
    refine h.least.least G hG hearlier (hc.congr hg hl ?_ fun name => (hflipAll hG name).symm)
    exact Flipped.isKnowledge hg ⟨_, hunknown.symm ▸ hG, rfl⟩ hq

/-! ### Learning one value -/

/-- **Flips that are consistent with more are consistent with less.** -/
theorem Consistent.of_set (hp : g.IsKnowledge p) (hv : v ∈ g.declared)
    (hunknown : p.get? v.name = none) (hdefault : v.isMutable = true → b = v.default)
    (hlatch : v.isTriggered = true → b = false)
    (hG : G.Sublist (g.unknownMutables (p.set v.name b)))
    (hc : g.Consistent .latched (flipAll (p.set v.name b) G)) :
    G.Sublist (g.unknownMutables p) ∧ g.Consistent .latched (flipAll p G) := by
  obtain ⟨s, hs⟩ := (consistent_iff_exists_isCompletion hg hl
    (Flipped.isKnowledge hg ⟨G, hG, rfl⟩ (hp.set hv b))).mp hc
  rw [unknownMutables_set] at hG
  have hout : v.name ∉ G.map Variable.name := by
    intro hin
    obtain ⟨u, hu, he⟩ := List.mem_map.mp hin
    have hne := (List.mem_filter.mp (hG.subset hu)).2
    rw [decide_eq_true_eq] at hne
    exact hne he.symm
  have hG' := hG.trans List.filter_sublist
  have hn := nodup_of_sublist_unknownMutables hg hG'
  refine ⟨hG', (consistent_iff_exists_isCompletion hg hl
    (Flipped.isKnowledge hg ⟨G, hG', rfl⟩ hp)).mpr ⟨s, ?_⟩⟩
  refine IsCompletion.of_set hg hv ?_ hdefault hlatch (hs.congr (get?_flipAll_set hn hout p b))
  rw [Search.get?_flipAll_of_notMem hn p hout]
  exact hunknown

theorem Resolves.least_set (hp : g.IsKnowledge p) (h : g.Resolves p M) (hv : v ∈ g.declared)
    (hb : M.get? v.name = some b) (hunknown : p.get? v.name = none)
    (hharmless : g.Harmless p M v) (hout : v ∉ g.flipsOf p M) :
    g.LeastFlips .latched (p.set v.name b) (g.flipsOf p M) := by
  have hsub : (g.flipsOf p M).Sublist (g.unknownMutables (p.set v.name b)) := by
    rw [← flipsOf_set_of_notMem (b := b) hg hv hout]
    exact List.filter_sublist
  refine ⟨hsub, ?_, ?_⟩
  · have hcompletion := isCompletion_flipsOf hg (h.model.set hb)
    rw [flipsOf_set_of_notMem hg hv hout] at hcompletion
    exact (consistent_iff_exists_isCompletion hg hl
      (Flipped.isKnowledge hg ⟨_, hsub, rfl⟩ (hp.set hv b))).mpr ⟨M, hcompletion⟩
  · intro G hG hearlier hc
    have hdefault : v.isMutable = true → b = v.default := by
      intro hm
      by_contra hne
      refine hout (mem_flipsOf_iff.mpr ⟨mem_unknownMutables_iff.mpr ⟨hv, hm, hunknown⟩, ?_⟩)
      rw [hb, Bool.eq_not.mpr hne]
    have hlatch : v.isTriggered = true → b = false := by
      intro hk
      by_contra htrue
      rw [Bool.not_eq_false] at htrue
      -- Nothing comes before no flips at all.
      rw [hharmless.latch hk hunknown (htrue ▸ hb)] at hearlier
      cases hearlier
    obtain ⟨hG', hc'⟩ := Consistent.of_set hg hl hp hv hunknown hdefault hlatch hG hc
    exact h.least.least G hG' hearlier hc'

/-- **What is harmless to learn** leaves what the knowledge resolves to. -/
theorem Resolves.set (hp : g.IsKnowledge p) (h : g.Resolves p M) (hv : v ∈ g.declared)
    (hb : M.get? v.name = some b) (hharmless : g.Harmless p M v) :
    g.Resolves (p.set v.name b) M := by
  cases hknown : p.get? v.name with
  | some c =>
    -- It was known before.
    refine h.congr hg hl hp ?_
    intro name
    rw [Table.get?_set]
    split
    next he => rw [← he, hknown, ← h.model.extends_known _ _ hknown, hb]
    next => rfl
  | none =>
    refine ⟨h.model.set hb, ?_⟩
    by_cases hin : v ∈ g.flipsOf p M
    · -- The first flip is learned, and after it the others are the least.
      obtain ⟨F, hF⟩ : ∃ F, g.flipsOf p M = v :: F := by
        have hflip := hharmless.flip
        cases hF : g.flipsOf p M with
        | nil =>
          rw [hF] at hin
          cases hin
        | cons w F =>
          rw [hF] at hin hflip
          rcases List.mem_cons.mp hin with rfl | hin
          · exact ⟨F, rfl⟩
          · exact absurd hin hflip
      have hleast := h.least
      rw [hF] at hleast
      have hvalue : b = !v.default := by
        have hflipped := (mem_flipsOf_iff.mp hin).2
        rw [hb] at hflipped
        exact Option.some.inj hflipped
      rw [flipsOf_set_first hg hF, hvalue]
      exact hleast.tail hg hl hp
    · rw [flipsOf_set_of_notMem hg hv hin]
      exact h.least_set hg hl hp hv hb hknown hharmless hin

end

end Chronicle.Graph
