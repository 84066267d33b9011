import Chronicle.Proofs.Completion.Graft
import Chronicle.Proofs.Search.Learned

/-!
# What is set aside for some latches

To ask anew whether some latches hold, set aside what is known of them, and of all that rests on
them (`SetsAside`).  What then is left resolves to a model, and the question is whether more would
have led to another one.  More knowledge never admits more flips: whatever completes it, with what
rests on the latches grafted anew, completes what is left of it (`SetsAside.exists_isCompletion`).
So if the model upholds what was set aside, the search comes to it from there as well
(`SetsAside.resolves`).
-/

namespace Chronicle.Graph

open Search (flipAll)

variable {g : Graph} {T F : List Variable} {K L M p q s : Valuation}
  {u w : Variable}

/-- The variable is one of the latches, or depends on one. -/
def RestsOn (T : List Variable) (u : Variable) : Prop :=
  ∃ t ∈ T, t = u ∨ u.dependsOn t.name = true

/-- What goes with a latch is the latch, and all that is derived from it: this is forgotten when it
is examined, and again when it fires. -/
def GoesWith (t u : Variable) : Prop :=
  u = t ∨ (u.isDerived = true ∧ u.dependsOn t.name = true)

/-- `K` is `L` without what rests on the latches, apart from others that are known to have fired. -/
structure SetsAside (g : Graph) (T : List Variable) (L K : Valuation) : Prop where
  latches : ∀ t ∈ T, t ∈ g.declared ∧ t.isTriggered = true
  unknown : ∀ t ∈ T, K.get? t.name = none
  less : L.Extends K
  same : ∀ u ∈ g.declared, ¬ RestsOn T u → K.get? u.name = L.get? u.name
  fired : ∀ u ∈ g.declared, RestsOn T u → ∀ b, K.get? u.name = some b →
    u.isTriggered = true ∧ b = true

theorem GoesWith.restsOn {t : Variable} (h : GoesWith t u) (ht : t ∈ T) : RestsOn T u := by
  rcases h with rfl | ⟨_, hd⟩
  · exact ⟨u, ht, Or.inl rfl⟩
  · exact ⟨t, ht, Or.inr hd⟩

theorem SetsAside.get?_of_goesWith {t : Variable} (h : g.SetsAside T L K) (ht : t ∈ T)
    (hu : u ∈ g.declared) (hwith : GoesWith t u) : K.get? u.name = none := by
  have hrests := hwith.restsOn ht
  rcases hwith with rfl | ⟨hd, _⟩
  · exact h.unknown u ht
  · by_contra hknown
    obtain ⟨b, hb⟩ := Option.ne_none_iff_exists'.mp hknown
    have hk := (h.fired u hu hrests b hb).1
    rw [Variable.isDerived_of_isTriggered hk] at hd
    cases hd

theorem SetsAside.of_same {t : Variable} {L' : Valuation} (h : g.SetsAside T L K)
    (hK : g.IsKnowledge K) (ht : t ∈ T)
    (hsame : ∀ u ∈ g.declared, ¬ GoesWith t u → L'.get? u.name = L.get? u.name) :
    g.SetsAside T L' K where
  latches := h.latches
  unknown := h.unknown
  less := by
    intro name b hb
    obtain ⟨u, hu, rfl⟩ := List.mem_map.mp (hK name (Table.contains_iff.mpr ⟨b, hb⟩))
    rw [hsame u hu]
    · exact h.less _ _ hb
    · intro hwith
      rw [h.get?_of_goesWith ht hu hwith] at hb
      cases hb
  same := by
    intro u hu hrests
    rw [hsame u hu fun hwith => hrests (hwith.restsOn ht)]
    exact h.same u hu hrests
  fired := h.fired

section

variable (hg : g.IsValid)

include hg

theorem not_restsOn_of_dependsOn (hu : u ∈ g.declared) (hw : w ∈ g.declared)
    (hd : u.dependsOn w.name = true) (h : ¬ RestsOn T u) : ¬ RestsOn T w := by
  rintro ⟨t, ht, hrests⟩
  exact h ⟨t, ht, Or.inr (hg.closed.dependsOn_through hu hw hd hrests)⟩

theorem not_restsOn_of_isMutable (hT : ∀ t ∈ T, t ∈ g.declared ∧ t.isTriggered = true)
    (hu : u ∈ g.declared) (hm : u.isMutable = true) : ¬ RestsOn T u := by
  rintro ⟨t, ht, hrests⟩
  rcases hrests with rfl | hd
  · exact Variable.ne_of_isTriggered hm (hT _ ht).2 rfl
  · rw [hg.dependsOn_mutable hu hm] at hd
    cases hd

theorem SetsAside.get?_mutable (h : g.SetsAside T L K) (hu : u ∈ g.declared)
    (hm : u.isMutable = true) : K.get? u.name = L.get? u.name :=
  h.same u hu (not_restsOn_of_isMutable hg h.latches hu hm)

theorem SetsAside.unknownMutables_eq (h : g.SetsAside T L K) :
    g.unknownMutables K = g.unknownMutables L := by
  refine List.filter_congr ?_
  intro m hm
  obtain ⟨hm, hk⟩ := List.mem_filter.mp hm
  rw [Table.contains, Table.contains, h.get?_mutable hg hm hk]

theorem SetsAside.flipped (h : g.SetsAside T L K) (hF : F.Sublist (g.unknownMutables K)) :
    g.SetsAside T (flipAll L F) (flipAll K F) := by
  have hn := nodup_of_sublist_unknownMutables hg.wellFormed hF
  have hkept : ∀ u ∈ g.declared, RestsOn T u → (flipAll K F).get? u.name = K.get? u.name := by
    intro u hu hrests
    refine Search.get?_flipAll_of_notMem hn K ?_
    intro hmem
    obtain ⟨m, hm, he⟩ := List.mem_map.mp hmem
    obtain ⟨hdec, hk, _⟩ := mem_unknownMutables_iff.mp (hF.subset hm)
    obtain rfl := hg.wellFormed.eq_of_name hdec hu he
    exact not_restsOn_of_isMutable hg h.latches hu hk hrests
  refine ⟨h.latches, ?_, ?_, ?_, ?_⟩
  · intro t ht
    rw [hkept t (h.latches t ht).1 ⟨t, ht, Or.inl rfl⟩]
    exact h.unknown t ht
  · intro name b hb
    rw [Search.get?_flipAll hn, Option.or_eq_some_iff] at hb ⊢
    exact hb.imp_right (And.imp_right (h.less name b))
  · intro u hu hrests
    rw [Search.get?_flipAll hn, Search.get?_flipAll hn, h.same u hu hrests]
  · intro u hu hrests b hb
    exact h.fired u hu hrests b (hkept u hu hrests ▸ hb)

variable (hl : g.IsLocal)

include hl

/-- **What completes all completes what is left**, once what rests on the latches is grafted
anew. -/
theorem SetsAside.exists_isCompletion (h : g.SetsAside T L K) (hK : g.IsKnowledge K)
    (hs : g.IsCompletion .latched L s) : ∃ N, g.IsCompletion .latched K N := by
  have hw := hg.wellFormed
  obtain ⟨N, hN⟩ := exists_graft hw hl K hs.toIsModel
  refine ⟨N, hN.isModel hw hl hg.closed hs.toIsModel hK ?_ ?_, ?_⟩
  · exact fun m _ _ b hb => hs.extends_known _ _ (h.less _ _ hb)
  · -- What is known and no latch that has fired rests on none, nor does anything below it.
    intro u hu hm b hb hopen
    have hrests : ¬ RestsOn T u := by
      intro hrests
      obtain ⟨hk, htrue⟩ := h.fired u hu hrests b hb
      rw [htrue] at hopen
      exact Bool.noConfusion (hopen hk)
    refine ⟨s, hs.toIsModel.grounds ?_, fun _ _ _ _ => rfl⟩
    intro t ht _ htu
    refine Or.inl (h.same t ht ?_)
    rcases htu with rfl | hd
    · exact hrests
    · exact not_restsOn_of_dependsOn hg hu ht hd hrests
  · intro m hm hk hunknown
    rw [hN.mutables m hm hk]
    exact hs.default m hm hk ((h.get?_mutable hg hm hk).symm.trans hunknown)

/-- **What was set aside changes nothing** if the model upholds it: all that was known resolves to
the model of what is left. -/
theorem SetsAside.resolves (h : g.SetsAside T L K) (hL : g.IsKnowledge L) (hK : g.IsKnowledge K)
    (hM : g.Resolves K M) (hext : M.Extends L) : g.Resolves L M := by
  have hw := hg.wellFormed
  have hmodel := hM.model.of_extends h.less hext
  have hunknown := h.unknownMutables_eq hg
  have hflips : g.flipsOf L M = g.flipsOf K M := by rw [flipsOf, flipsOf, hunknown]
  have hsub : (g.flipsOf L M).Sublist (g.unknownMutables L) := List.filter_sublist
  refine ⟨hmodel, hsub, ?_, ?_⟩
  · exact (consistent_iff_exists_isCompletion hw hl (Flipped.isKnowledge hw ⟨_, hsub, rfl⟩ hL)).mpr
      ⟨M, isCompletion_flipsOf hw hmodel⟩
  · intro G hG hearlier hc
    rw [hflips] at hearlier
    have hG' : G.Sublist (g.unknownMutables K) := hunknown ▸ hG
    have hknown := Flipped.isKnowledge hw ⟨G, hG', rfl⟩ hK
    obtain ⟨s, hs⟩ := (consistent_iff_exists_isCompletion hw hl
      (Flipped.isKnowledge hw ⟨G, hG, rfl⟩ hL)).mp hc
    refine hM.least.least G hG' hearlier ?_
    exact (consistent_iff_exists_isCompletion hw hl hknown).mpr
      ((h.flipped hg hG').exists_isCompletion hg hl hknown hs)

end

end Chronicle.Graph
