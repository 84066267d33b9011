import Chronicle.Proofs.Period.Span

/-!
# Arrivals in a period that was never visited

Nothing has happened there, so there is no firing to explain and every start is open: the history
that is found is the first consistent state (`find_blank`).  Of its values only the news is written,
the mutables that are not at their defaults and the latches that are true.  That is enough: what
the state completes to, the news completes to as well (`isCompletion_startOverrides`).
-/

namespace Chronicle

namespace Graph

variable {g : Graph} {p q m : Valuation}

theorem IsKnowledge.update (hp : g.IsKnowledge p) (hq : g.IsKnowledge q) :
    g.IsKnowledge (p.update q.entries) := by
  intro name hn
  obtain ⟨b, hb⟩ := Table.contains_iff.mp hn
  rw [Table.get?_update_entries] at hb
  rcases Option.or_eq_some_iff.mp hb with hb | ⟨_, hb⟩
  · exact hq name (Table.contains_iff.mpr ⟨b, hb⟩)
  · exact hp name (Table.contains_iff.mpr ⟨b, hb⟩)

theorem isKnowledge_of_merge (hp : g.IsKnowledge p) (hq : g.IsKnowledge q)
    (h : g.merge p q = some m) : g.IsKnowledge m := by
  obtain ⟨_, rfl⟩ := merge_eq_some_iff.mp h
  exact hp.update hq

theorem IsKnowledge.get?_eq (hp : g.IsKnowledge p) (hq : g.IsKnowledge q)
    (h : ∀ v ∈ g.declared, p.get? v.name = q.get? v.name) (name : String) :
    p.get? name = q.get? name := by
  have hnone : ∀ {k : Valuation}, g.IsKnowledge k → name ∉ g.names → k.get? name = none := by
    intro k hk hn
    rw [← Table.contains_eq_false_iff, ← Bool.not_eq_true]
    exact mt (hk name) hn
  by_cases hn : name ∈ g.names
  · obtain ⟨v, hv, rfl⟩ := List.mem_map.mp hn
    exact h v hv
  · rw [hnone hp hn, hnone hq hn]

end Graph

namespace Period

variable {g : Graph} {time : Int} {o : Valuation}

theorem accepts_blank (time : Int) (o : Valuation) : (blank time).Accepts o := fun _ _ => rfl

section

variable (hg : g.WellFormed) (ho : g.IsKnowledge o)

include hg ho

theorem get?_currentState_overridden_blank (name : String) :
    (((blank time).overridden o.entries).currentState g).get? name = o.get? name := by
  refine Graph.IsKnowledge.get?_eq (isKnowledge_currentState hg _) ho ?_ name
  intro v hv
  rw [get?_currentState_overridden hg.nodup (accepts_blank time o) hv, currentState,
    get?_collect_name hg.nodup _ hv]
  rfl

theorem get?_startState_overridden_blank (name : String) :
    (((blank time).overridden o.entries).startState g).get? name = o.get? name := by
  refine Graph.IsKnowledge.get?_eq (isKnowledge_startState hg _) ho ?_ name
  intro v hv
  rw [get?_startState_overridden hg.nodup hv, startState, get?_collect_name hg.nodup _ hv]
  exact Option.or_none

end

end Period

namespace Arrival

open Search (flipAll flipSets)

variable {g : Graph} {time : Int} {p : Period} {merged q S : Valuation} {a : Arrival}

/-- **The news is enough**: where every start is open, what a state completes to, its news completes
to as well. -/
theorem isCompletion_startOverrides (hg : g.WellFormed) (h : g.IsCompletion .latched q S)
    (hopen : ∀ v ∈ g.declared, p.canOverride v.name = true) :
    g.IsCompletion .latched (startOverrides g p q) S := by
  have hnews : ∀ v ∈ g.declared,
      (startOverrides g p q).get? v.name = (q.get? v.name).filter (isNews v) := by
    intro v hv
    rw [get?_startOverrides hg hv, if_pos (hopen v hv)]
  refine ⟨h.toIsModel.transfer ?_ ?_, ?_⟩
  · intro name b hb
    obtain ⟨_, _, _, _, hq, _⟩ := startOverrides_eq_some hg hb
    exact h.extends_known name b hq
  · -- A latch recorded true is news.
    intro _ v hv hk htrue
    refine Table.contains_iff.mpr ⟨true, ?_⟩
    rw [hnews v hv, htrue]
    simp [isNews, Variable.isMutable_of_isTriggered hk, hk]
  · intro v hv hm hn
    rw [hnews v hv] at hn
    cases hq : q.get? v.name with
    | none => exact h.default v hv hm hq
    | some b =>
      rw [hq] at hn
      have hb : b = v.default := by simpa [isNews, hm] using hn
      exact hb ▸ h.extends_known _ _ hq

section

variable (hg : g.WellFormed) (hl : g.IsLocal)

include hg

theorem isKnowledge_startOverrides (p : Period) (q : Valuation) :
    g.IsKnowledge (startOverrides g p q) := World.isKnowledge_collect hg _

/-- A period that takes the news of a state completes to what the state completes to, at its start
and now. -/
theorem spans_overridden_blank (time : Int) (h : g.IsCompletion .latched q S) :
    ((Period.blank time).overridden (startOverrides g (.blank time) q).entries).Spans g S S := by
  have hnews := isCompletion_startOverrides (p := .blank time) hg h fun _ _ => rfl
  have hknown := isKnowledge_startOverrides hg (.blank time) q
  refine ⟨hnews.congr ?_, hnews.congr ?_⟩
  · intro name
    exact (Period.get?_startState_overridden_blank hg hknown name).symm
  · intro name
    exact (Period.get?_currentState_overridden_blank hg hknown name).symm

include hl

/-- **The history of a period that was never visited** is the first consistent state. -/
theorem find_blank (hk : g.IsKnowledge merged)
    (hq : g.findConsistent .latched merged = .ok (some q)) :
    find g merged (.blank time) = .ok (some ⟨q, q, startOverrides g (.blank time) q⟩) := by
  obtain ⟨before, F, after, hsets, rfl, hc, hbefore⟩ := Graph.findConsistent_eq_some_iff.mp hq
  have hF : F.Sublist (g.unknownMutables merged) :=
    Search.mem_flipSets.mp (hsets ▸ List.mem_append_cons_self)
  have hflipped : g.Flipped merged (flipAll merged F) := ⟨F, hF, rfl⟩
  have hfits : Fits g merged (.blank time) ⟨flipAll merged F, flipAll merged F,
      startOverrides g (.blank time) (flipAll merged F)⟩ := by
    refine fits_of_firesByDefault hflipped hc (fun _ hd => nomatch hd) ?_
    obtain ⟨S, hS⟩ := (Graph.consistent_iff_exists_isCompletion hg hl
      (hflipped.isKnowledge hg hk)).mp hc
    have hknown := isKnowledge_startOverrides hg (.blank time) (flipAll merged F)
    have hupdate := (Period.isKnowledge_currentState hg (.blank time)).update hknown
    refine (Graph.solvable_iff hg hl hupdate).mpr ⟨S, ?_⟩
    refine (isCompletion_startOverrides (p := .blank time) hg hS fun _ _ => rfl).toIsModel.congr ?_
    refine hknown.get?_eq hupdate ?_
    intro v hv
    rw [Table.get?_update_entries, Period.get?_currentState hg.nodup hv]
    exact Option.or_none.symm
  rw [find, Search.first_eq_some_iff]
  refine ⟨before, F, after, hsets, ?_, ?_⟩
  · rw [Graph.isConsistent_eq_true_iff.mpr hc, ok_bind, if_pos rfl]
    exact ofCandidate_of_fits hg hl hfits
  · intro G hG
    rw [hbefore G hG]
    rfl

end

end Arrival

end Chronicle
