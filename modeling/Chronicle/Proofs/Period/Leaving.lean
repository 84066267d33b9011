import Chronicle.Proofs.Period.Span

/-!
# What leaves a period is consistent if what it knows is

What leaves is only a part: stale values stay behind, and so does every transient latch with all
that depends on it.  To forget is not harmless, because a latch that is recorded true need not fire,
while one of which nothing is known has to be as its rule says.  But what depends on a latch that
stays behind stays behind too, and a persistent latch is never stale.  So a model of what the period
knows becomes one of what leaves it, if all that stays behind is evaluated anew
(`exists_isModel_endState`).
-/

namespace Chronicle

namespace Record

variable {r : Record} {b : Bool}

theorem peek_of_outgoing (h : r.outgoing = some b) : r.peek = some b := by
  unfold outgoing at h
  unfold peek
  split at h
  next c hc =>
    split at h
    · cases h
    · rw [hc, ← h]
      rfl
  next hc => rw [hc, Option.none_or, h]

theorem outgoing_eq_peek (h : ∀ b, r.currentValue = some b → r.modifiedSinceObserved = false) :
    r.outgoing = r.peek := by
  unfold outgoing peek
  split
  next c hc =>
    rw [h c hc, hc]
    rfl
  next hc => rw [hc, Option.none_or]

end Record

namespace Graph

variable {g : Graph} {v w : Variable}

theorem carries_iff : g.carries v = true ↔ v.isTransient = false ∧
    ∀ w ∈ g.declared, v.dependsOn w.name = true → w.isTransient = false := by
  unfold carries
  rw [Bool.and_eq_true, Bool.not_eq_true', List.all_eq_true]
  refine and_congr_right ?_
  intro _
  refine forall₂_congr ?_
  intro w _
  cases v.dependsOn w.name <;> simp

/-- What leaves a period depends on nothing that stays behind. -/
theorem Closed.carries_of_dependsOn (hc : g.Closed) (hv : v ∈ g.declared) (hw : w ∈ g.declared)
    (h : g.carries v = true) (hd : v.dependsOn w.name = true) : g.carries w = true := by
  obtain ⟨_, hall⟩ := carries_iff.mp h
  refine carries_iff.mpr ⟨hall w hw hd, ?_⟩
  intro x hx hwx
  exact hall x hx (hc.trans v hv w hw hd x.name hwx)

theorem IsValid.carries_mutable (hg : g.IsValid) (hv : v ∈ g.declared) (hm : v.isMutable = true) :
    g.carries v = true := by
  refine carries_iff.mpr ⟨?_, ?_⟩
  · cases hk : v.isTriggered with
    | false => rw [Variable.isTransient, hk, Bool.false_and]
    | true =>
      rw [Variable.isMutable_of_isTriggered hk] at hm
      cases hm
  · intro w _ hd
    rw [hg.dependsOn_mutable hv hm] at hd
    cases hd

theorem isPersistent_of_carries (h : g.carries v = true) (hk : v.isTriggered = true) :
    v.isPersistent = true := by
  have ht := (carries_iff.mp h).1
  rw [Variable.isTransient, hk, Bool.true_and, Bool.not_eq_false'] at ht
  exact ht

end Graph

namespace Period

variable {g : Graph} {p : Period} {v : Variable} {b : Bool} {M : Valuation}

/-- Nothing of the variable may leave, and it has a rule to be evaluated anew by. -/
def staysBehind (g : Graph) (v : Variable) : Bool := !v.isMutable && !g.carries v

theorem isKnowledge_endState (hg : g.WellFormed) (p : Period) : g.IsKnowledge (p.endState g) :=
  World.isKnowledge_collect hg _

section

variable (hg : g.WellFormed)

include hg

theorem get?_endState (hv : v ∈ g.declared) :
    (p.endState g).get? v.name = if g.carries v then (p.record v.name).outgoing else none :=
  get?_collect_name hg.nodup _ hv

theorem known_of_leaving (hv : v ∈ g.declared) (h : (p.endState g).get? v.name = some b) :
    g.carries v = true ∧ (p.currentState g).get? v.name = some b := by
  rw [get?_endState hg hv] at h
  split at h
  next hcarries =>
    exact ⟨hcarries, (get?_currentState hg.nodup hv).trans (Record.peek_of_outgoing h)⟩
  next => cases h

theorem leaving_of_latch (hf : p.Fresh g) (hv : v ∈ g.declared) (hk : v.isTriggered = true)
    (hcarries : g.carries v = true) :
    (p.endState g).get? v.name = (p.currentState g).get? v.name := by
  rw [get?_endState hg hv, if_pos hcarries, get?_currentState hg.nodup hv]
  exact Record.outgoing_eq_peek (hf v hv (Graph.isPersistent_of_carries hcarries hk))

/-- What the model of all that is known says of a variable that leaves, a model of what leaves may
say too. -/
theorem obeys_leaving {M' : Valuation} (hf : p.Fresh g)
    (hM : g.IsModel .latched (p.currentState g) M) (hv : v ∈ g.declared)
    (hm : v.isMutable = false) (hcarries : g.carries v = true)
    (hsame : M'.get? v.name = M.get? v.name)
    (hrule : ∀ rule, v.rule? = some rule → rule M' = rule M) :
    v.Obeys .latched (p.endState g) M' := by
  obtain ⟨rule, c, hr, hc, hobeys⟩ := hM.obeys hv hm
  refine ⟨rule, c, hr, (hrule rule hr).trans hc, ?_⟩
  cases hleaves : (p.endState g).get? v.name with
  | some r =>
    rw [(known_of_leaving hg hv hleaves).2] at hobeys
    exact hobeys
  | none =>
    refine hsame.trans ?_
    cases hknown : (p.currentState g).get? v.name with
    | none =>
      rw [hknown] at hobeys
      exact hobeys
    | some r =>
      -- Its value is stale, so it is no latch, and its rule gave the stale value.
      rw [hknown] at hobeys
      cases hk : v.isTriggered with
      | true =>
        rw [leaving_of_latch hg hf hv hk hcarries, hknown] at hleaves
        cases hleaves
      | false =>
        have hrc : r = c := by simpa [Variable.admits, hk] using hobeys
        exact (hM.extends_known _ _ hknown).trans (congrArg some hrc)

/-- **What leaves a period has a model if what the period knows has one.** -/
theorem exists_isModel_endState (hc : g.Closed) (hl : g.IsLocal) (hf : p.Fresh g)
    (hM : g.IsModel .latched (p.currentState g) M) :
    ∃ M', g.IsModel .latched (p.endState g) M' := by
  obtain ⟨M', htotal, hsame, hanew⟩ := hM.exists_anew hg hl (staysBehind g)
    (fun v _ hm => by rw [staysBehind, hm]; rfl)
  have hcarried : ∀ v ∈ g.declared, g.carries v = true → M'.get? v.name = M.get? v.name :=
    fun v hv hcarries => hsame v hv (by rw [staysBehind, hcarries, Bool.not_true, Bool.and_false])
  have hmutable : ∀ v ∈ g.declared, v.isMutable = true → M'.get? v.name = M.get? v.name :=
    fun v hv hm => hsame v hv (by rw [staysBehind, hm]; rfl)
  have hextends : M'.Extends (p.endState g) := by
    intro name b hb
    obtain ⟨v, hv, rfl, _⟩ := (get?_collect_eq_some_iff hg.nodup).mp hb
    obtain ⟨hcarries, hknown⟩ := known_of_leaving hg hv hb
    rw [hcarried v hv hcarries]
    exact hM.extends_known _ _ hknown
  refine ⟨M', Graph.isModel_of_obeys htotal hextends ?_ ?_⟩
  · intro v hv hm
    cases hcarries : g.carries v with
    | true =>
      refine obeys_leaving hg hf hM hv hm hcarries (hcarried v hv hcarries) ?_
      intro rule hr
      refine Graph.rule_eq_of_closure hg hl hv hm hr ?_
      intro w hw hn
      exact hcarried w hw (hc.carries_of_dependsOn hv hw hcarries hn)
    | false =>
      refine (hanew v hv ?_).obeys hextends
      rw [staysBehind, hm, hcarries]
      rfl
  · intro d hd
    exact hc.inRange_congr hmutable hd (hM.in_range d hd)

end

end Period

end Chronicle
