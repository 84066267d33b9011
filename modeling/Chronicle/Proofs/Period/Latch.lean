import Chronicle.Proofs.Period.Patch

/-!
# Latches are one-way

A latch is seen at the value that it has, and all that can change it is its own firing.  So one that
has changed since the start has fired (`kept_latched`), and no edit takes a known firing back
(`Edited.peek_latch`).  When one fires that was not known to have, everything derived from it is
forgotten (`Latched.peek_fired_dependent`).
-/

namespace Chronicle.Period

variable {g : Graph} {p q : Period} {t u : Variable} {b : Bool}

/-- A latch that has changed since the start is true. -/
def Latched (g : Graph) (p : Period) : Prop :=
  ∀ t ∈ g.declared, t.isTriggered = true → (p.record t.name).modifiedSinceStart = true →
    (p.record t.name).currentValue = some true

theorem Latched.eq_true (h : p.Latched g) (ha : p.Aligned g) (ht : t ∈ g.declared)
    (hk : t.isTriggered = true) (hs : ∀ c, (p.record t.name).knownStart = some c → c = true)
    (hb : p.peek t.name = some b) : b = true := by
  cases hf : (p.record t.name).modifiedSinceStart with
  | true =>
    rw [peek_of_modified hf, h t ht hk hf] at hb
    exact (Option.some.inj hb).symm
  | false =>
    rw [ha.peek_eq_knownStart ht hf] at hb
    exact hs b hb

theorem Latched.knownStart_ne_true (h : p.Latched g) (ha : p.Aligned g) (ht : t ∈ g.declared)
    (hk : t.isTriggered = true) (hnew : p.peek t.name ≠ some true) :
    (p.record t.name).knownStart ≠ some true := by
  cases hf : (p.record t.name).modifiedSinceStart with
  | true => exact absurd ((peek_of_modified hf).trans (h t ht hk hf)) hnew
  | false => rwa [← ha.peek_eq_knownStart ht hf]

section

variable (hg : g.WellFormed)

include hg

/-- **A latch that has changed has fired.** -/
theorem kept_latched : Kept g (Latched g) where
  blank := fun _ _ _ _ hf => nomatch hf
  observed := by
    intro p v b hv hb h t ht hk hf
    rw [modifiedSinceStart_observed] at hf
    have hcurrent := h t ht hk hf
    by_cases hne : t = v
    · subst hne
      have hpeek : p.peek t.name = some true := (peek_of_modified hf).trans hcurrent
      rw [record_observed_self]
      exact congrArg some (hb true hpeek).symm
    · rw [record_observed_of_ne hg hv ht hne]
      exact hcurrent
  modified := by
    intro p v b hv hm h t ht hk hf
    have hd := Variable.isDerived_of_isTriggered hk
    rw [record_modified_of_ne hg ht hd hv (Variable.ne_of_isTriggered hm hk).symm] at hf ⊢
    exact h t ht hk hf
  fired := by
    intro p u hu hku _ h t ht hk hf
    by_cases hne : t = u
    · subst hne
      rw [← peek_of_modified hf]
      exact peek_fired_self hg ht hk
    · rw [record_fired_of_ne hg hu ht (Variable.isDerived_of_isTriggered hk) hne] at hf ⊢
      exact h t ht hk hf
  overridden := by
    intro p o _ h t ht hk hf
    obtain ⟨hflag, hcurrent⟩ := record_overridden_now p o t.name
    rw [hcurrent]
    exact h t ht hk (hflag ▸ hf)

/-- **A firing forgets what is derived from the latch**, for that may be where it started no
longer. -/
theorem Latched.peek_fired_dependent (h : p.Latched g) (ha : p.Aligned g) (ht : t ∈ g.declared)
    (hk : t.isTriggered = true) (hnew : p.peek t.name ≠ some true) (hu : u ∈ g.declared)
    (hd : u.isDerived = true) (hdep : u.dependsOn t.name = true) :
    (p.fired g t).peek u.name = none := by
  have hdt := Variable.isDerived_of_isTriggered hk
  have hne : u ≠ t := by
    rintro rfl
    rw [hd] at hdt
    cases hdt
  have hmem : u ∈ g.derivedDependentsOf t.name := by
    refine mem_derivedDependentsOf.mpr ⟨hg.mem_order_iff.mpr ⟨hu, ?_⟩, hdep, hd⟩
    obtain ⟨rule, hr⟩ := Variable.role_of_isDerived hd
    exact Variable.isMutable_of_derived hr
  have hmay : (p.triggered g t).mayEqualStart g u = false := by
    have hroot : t ∈ g.rootsOf u := List.mem_filter.mpr ⟨ht, by rw [hdep, hdt]; rfl⟩
    have hstart : (p.triggered g t).assumedStart t = (p.record t.name).knownStart := by
      have hself := knownStart_modified (p := p.recordAntecedent g t) (b := true) hg ht hdt ht
      have hm := Variable.isMutable_of_isTriggered hk
      rw [assumedStart, hm, if_neg Bool.false_ne_true, Option.or_none]
      exact hself
    have hpeek : (p.triggered g t).peek t.name = some true := peek_triggered_self hg ht hdt
    refine List.all_eq_false.mpr ⟨t, hroot, ?_⟩
    rw [hstart, hpeek]
    rcases hs : (p.record t.name).knownStart with _ | _ | _
    · exact Bool.false_ne_true
    · exact Bool.false_ne_true
    · exact absurd hs (h.knownStart_ne_true ha ht hk hnew)
  have htriggered : (p.triggered g t).record u.name = (p.record u.name).unsettled false := by
    rw [← hmay]
    exact record_modified_dependent (p := p.recordAntecedent g t) hg ht hdt hmem
  have hfired : (p.fired g t).record u.name = (p.triggered g t).record u.name := by
    unfold fired
    split
    · exact record_observed_of_ne hg ht hu hne
    · rfl
  rw [peek, hfired, htriggered]
  rfl

/-- **No edit takes a firing back**: a latch that is known to be true stays so. -/
theorem Edited.peek_latch (h : Edited g p q) (ht : t ∈ g.declared) (hk : t.isTriggered = true)
    (hp : p.peek t.name = some true) : q.peek t.name = some true := by
  have hd := Variable.isDerived_of_isTriggered hk
  cases h with
  | untouched => exact hp
  | observed v b hv hb =>
    by_cases hne : t = v
    · subst hne
      rw [peek, record_observed_self, Record.peek_observed, hb _ hp]
    · rw [peek, record_observed_of_ne hg hv ht hne]
      exact hp
  | modified v b hv hm =>
    rw [peek, record_modified_of_ne hg ht hd hv (Variable.ne_of_isTriggered hm hk).symm]
    exact hp
  | fired u hu _ hnew =>
    have hne : t ≠ u := by
      rintro rfl
      exact hnew hp
    rw [peek, record_fired_of_ne hg hu ht hd hne]
    exact hp
  | overridden o ho => exact peek_overridden ho hp

end

end Chronicle.Period
