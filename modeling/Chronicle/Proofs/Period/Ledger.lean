import Chronicle.Proofs.World.Reach

/-!
# What the records of a period tell of one another

The solver never sees a flag: it is given what is known, and the flags decide what that is.  Three
facts about them hold in every period of a reachable world.

`Aligned`: a mutable or latch that has changed since the start has been written, what has not
changed is as it started, and a derived variable is not taken to have changed only if every mutable
beneath it is where it started (`kept_aligned`).  `Fresh` and `Settled`: the value of a persistent
latch is never stale (`kept_fresh`), for it is seen at once when it fires, nor is that of a derived
variable (`kept_settled`), for it is forgotten when anything beneath it is modified.
-/

namespace Chronicle

namespace Record

variable {r : Record} {b : Bool}

theorem knownStart_observed (r : Record) (b : Bool) :
    (r.observed b).knownStart =
      if r.modifiedSinceStart then r.knownStart else r.startOverride.or (some b) := by
  unfold knownStart observed
  cases r.modifiedSinceStart <;> rfl

theorem peek_observed (r : Record) (b : Bool) : (r.observed b).peek = some b := rfl

end Record

namespace Period

variable {g : Graph} {p : Period} {v m : Variable} {b : Bool} {o : Valuation}

/-- The mutable is where it started, as far as the period knows or else assumes. -/
def Unmoved (p : Period) (m : Variable) : Prop :=
  (p.record m.name).knownStart.getD m.default = (p.peek m.name).getD m.default

/-- The flags of a period fit its values. -/
structure Aligned (g : Graph) (p : Period) : Prop where
  valued : ∀ v ∈ g.declared, v.isDerived = false →
    (p.record v.name).modifiedSinceStart = true → ∃ b, (p.record v.name).currentValue = some b
  steady : ∀ v ∈ g.declared, (p.record v.name).modifiedSinceStart = false →
    ∀ b, (p.record v.name).currentValue = some b → (p.record v.name).knownStart = some b
  rooted : ∀ v ∈ g.declared, v.isDerived = true → (p.record v.name).modifiedSinceStart = false →
    ∀ m ∈ g.declared, m.isMutable = true → v.dependsOn m.name = true → p.Unmoved m

/-- What has not changed is known exactly if its start is. -/
theorem Aligned.peek_eq_knownStart (h : p.Aligned g) (hv : v ∈ g.declared)
    (hf : (p.record v.name).modifiedSinceStart = false) :
    p.peek v.name = (p.record v.name).knownStart := by
  rw [peek, Record.peek, hf, if_neg Bool.false_ne_true]
  cases hc : (p.record v.name).currentValue with
  | none => rfl
  | some b =>
    rw [h.steady v hv hf b hc]
    rfl

theorem peek_of_modified {name : String} (hf : (p.record name).modifiedSinceStart = true) :
    p.peek name = (p.record name).currentValue := by
  rw [peek, Record.peek, hf, if_pos rfl, Option.or_none]

theorem Aligned.unmodified_of_canOverride (h : p.Aligned g) (hv : v ∈ g.declared)
    (hd : v.isDerived = false) (ho : p.canOverride v.name = true) :
    (p.record v.name).modifiedSinceStart = false := by
  by_contra hf
  rw [Bool.not_eq_false] at hf
  obtain ⟨b, hb⟩ := h.valued v hv hd hf
  rw [(canOverride_iff.mp ho).2] at hb
  cases hb

theorem Aligned.startOverride_eq (h : p.Aligned g) (hv : v ∈ g.declared)
    (hb : ∀ c, p.peek v.name = some c → c = b)
    (hf : (p.record v.name).modifiedSinceStart = false) :
    (p.record v.name).startOverride.or (some b) = some b := by
  cases ho : (p.record v.name).startOverride with
  | none => rfl
  | some c =>
    have hpeek : p.peek v.name = some c := by
      rw [h.peek_eq_knownStart hv hf, Record.knownStart, ho, Option.some_or]
    rw [hb c hpeek, Option.some_or]

theorem unmoved_of_mayEqualStart
    (hvalued : (p.record m.name).modifiedSinceStart = true →
      ∃ b, (p.record m.name).currentValue = some b)
    (hm : m ∈ g.declared) (hk : m.isMutable = true) (hdep : v.dependsOn m.name = true)
    (h : p.mayEqualStart g v = true) : p.Unmoved m := by
  have hroot : m ∈ g.rootsOf v :=
    List.mem_filter.mpr ⟨hm, by rw [hdep, Variable.isDerived_of_isMutable hk]; rfl⟩
  have hsame := List.all_eq_true.mp h m hroot
  have hstart : p.assumedStart m = some ((p.record m.name).knownStart.getD m.default) := by
    rw [assumedStart, if_pos hk]
    cases (p.record m.name).knownStart <;> rfl
  rw [hstart] at hsame
  unfold Unmoved
  cases hpeek : p.peek m.name with
  | some b =>
    rw [hpeek] at hsame
    simpa using (beq_iff_eq.mp hsame).symm
  | none =>
    -- Nothing is known of it, so nothing has changed and its start is not known either.
    rw [peek, Record.peek, Option.or_eq_none_iff] at hpeek
    obtain ⟨hc, hs⟩ := hpeek
    cases hf : (p.record m.name).modifiedSinceStart with
    | true =>
      obtain ⟨b, hb⟩ := hvalued hf
      rw [hc] at hb
      cases hb
    | false =>
      rw [hf, if_neg Bool.false_ne_true] at hs
      rw [hs]

theorem record_observed_self (p : Period) (v : Variable) (b : Bool) :
    (p.observed v.name b).record v.name = (p.record v.name).observed b := by
  rw [record_observed, if_pos rfl]

theorem modifiedSinceStart_observed (p : Period) (seen : String) (b : Bool) (name : String) :
    ((p.observed seen b).record name).modifiedSinceStart =
      (p.record name).modifiedSinceStart := by
  rw [record_observed]
  split
  next h =>
    rw [← h]
    rfl
  next => rfl

theorem record_overridden_none {name : String} (hn : o.get? name = none) :
    (p.overridden o.entries).record name = p.record name := by
  rw [record_overridden, hn]

theorem record_overridden_some {name : String} (hn : o.get? name = some b) :
    (p.overridden o.entries).record name = { p.record name with startOverride := some b } := by
  rw [record_overridden, hn]

theorem canOverride_overridden_none {name : String} (hn : o.get? name = none) :
    (p.overridden o.entries).canOverride name = p.canOverride name := by
  rw [canOverride, record_overridden_none hn, canOverride]

theorem canOverride_overridden_some {name : String} (hn : o.get? name = some b) :
    (p.overridden o.entries).canOverride name = false := by
  rw [canOverride, record_overridden_some hn]
  rfl

theorem record_overridden_now (p : Period) (o : Valuation) (name : String) :
    ((p.overridden o.entries).record name).modifiedSinceStart =
        (p.record name).modifiedSinceStart ∧
      ((p.overridden o.entries).record name).currentValue = (p.record name).currentValue := by
  cases hn : o.get? name with
  | none =>
    rw [record_overridden_none hn]
    exact ⟨rfl, rfl⟩
  | some c =>
    rw [record_overridden_some hn]
    exact ⟨rfl, rfl⟩

theorem Aligned.unmoved_overridden (h : p.Aligned g) (ho : p.Accepts o) (hm : m ∈ g.declared)
    (hk : m.isMutable = true) (hbefore : p.Unmoved m) : (p.overridden o.entries).Unmoved m := by
  unfold Unmoved peek at hbefore ⊢
  cases hn : o.get? m.name with
  | none =>
    rw [record_overridden_none hn]
    exact hbefore
  | some c =>
    have hopen := ho m.name (Table.contains_iff.mpr ⟨c, hn⟩)
    have hf := h.unmodified_of_canOverride hm (Variable.isDerived_of_isMutable hk) hopen
    have hc := (canOverride_iff.mp hopen).2
    rw [record_overridden_some hn]
    simp [Record.peek, Record.knownStart, hf, hc]

theorem Aligned.overridden (h : p.Aligned g) (ho : p.Accepts o) :
    (p.overridden o.entries).Aligned g := by
  refine ⟨?_, ?_, ?_⟩
  · intro u hu hd hf
    rw [(record_overridden_now p o u.name).1] at hf
    rw [(record_overridden_now p o u.name).2]
    exact h.valued u hu hd hf
  · intro u hu hf c hc
    rw [(record_overridden_now p o u.name).1] at hf
    rw [(record_overridden_now p o u.name).2] at hc
    cases hn : o.get? u.name with
    | none =>
      rw [record_overridden_none hn]
      exact h.steady u hu hf c hc
    | some x =>
      -- Its start was open, so nothing was recorded of it.
      rw [(canOverride_iff.mp (ho u.name (Table.contains_iff.mpr ⟨x, hn⟩))).2] at hc
      cases hc
  · intro u hu hd hf m hm hk hdep
    rw [(record_overridden_now p o u.name).1] at hf
    exact h.unmoved_overridden ho hm hk (h.rooted u hu hd hf m hm hk hdep)

section

variable (hg : g.WellFormed)

include hg

theorem record_observed_of_ne (hv : v ∈ g.declared) {u : Variable} (hu : u ∈ g.declared)
    (hne : u ≠ v) : (p.observed v.name b).record u.name = p.record u.name := by
  rw [record_observed, if_neg fun he => hne (hg.eq_of_name hu hv he.symm)]

theorem Aligned.unmoved_observed (h : p.Aligned g) (hv : v ∈ g.declared)
    (hb : ∀ c, p.peek v.name = some c → c = b) (hm : m ∈ g.declared) (hk : m.isMutable = true)
    (hbefore : p.Unmoved m) : (p.observed v.name b).Unmoved m := by
  unfold Unmoved at hbefore ⊢
  by_cases hne : m = v
  · subst hne
    rw [peek, record_observed_self, Record.peek_observed, Record.knownStart_observed]
    cases hf : (p.record m.name).modifiedSinceStart with
    | false => rw [if_neg Bool.false_ne_true, h.startOverride_eq hm hb hf]
    | true =>
      -- It has been written, and the observation is of what was written.
      obtain ⟨c, hc⟩ := h.valued m hm (Variable.isDerived_of_isMutable hk) hf
      have hpeek : p.peek m.name = some c := (peek_of_modified hf).trans hc
      rw [hpeek] at hbefore
      rw [if_pos rfl, hbefore, hb c hpeek]
  · unfold peek at hbefore ⊢
    rw [record_observed_of_ne hg hv hm hne]
    exact hbefore

theorem Aligned.observed (h : p.Aligned g) (hv : v ∈ g.declared)
    (hb : ∀ c, p.peek v.name = some c → c = b) : (p.observed v.name b).Aligned g := by
  refine ⟨?_, ?_, ?_⟩
  · intro u hu hd hf
    by_cases hne : u = v
    · subst hne
      exact ⟨b, by rw [record_observed_self]; rfl⟩
    · rw [record_observed_of_ne hg hv hu hne] at hf ⊢
      exact h.valued u hu hd hf
  · intro u hu hf c hc
    rw [modifiedSinceStart_observed] at hf
    by_cases hne : u = v
    · subst hne
      rw [record_observed_self] at hc ⊢
      rw [Record.knownStart_observed, hf, if_neg Bool.false_ne_true, h.startOverride_eq hu hb hf]
      exact hc
    · rw [record_observed_of_ne hg hv hu hne] at hc ⊢
      exact h.steady u hu hf c hc
  · intro u hu hd hf m hm hk hdep
    rw [modifiedSinceStart_observed] at hf
    exact h.unmoved_observed hg hv hb hm hk (h.rooted u hu hd hf m hm hk hdep)

theorem Aligned.modified (h : p.Aligned g) (hv : v ∈ g.declared) (hd : v.isDerived = false)
    (b : Bool) : (p.modified g v.name b).Aligned g := by
  have hvalued : ∀ u ∈ g.declared, u.isDerived = false →
      ((p.modified g v.name b).record u.name).modifiedSinceStart = true →
      ∃ c, ((p.modified g v.name b).record u.name).currentValue = some c := by
    intro u hu hud hf
    rcases record_modified_cases (p := p) (b := b) hg hv hd hu with
      ⟨_, hr⟩ | ⟨hder, _⟩ | ⟨_, _, hr⟩
    · exact ⟨b, by rw [hr]; rfl⟩
    · rw [hud] at hder
      cases hder
    · rw [hr] at hf ⊢
      exact h.valued u hu hud hf
  refine ⟨hvalued, ?_, ?_⟩
  · intro u hu hf c hc
    rcases record_modified_cases (p := p) (b := b) hg hv hd hu with
      ⟨_, hr⟩ | ⟨_, _, hr⟩ | ⟨_, _, hr⟩
    · rw [hr] at hf
      cases hf
    · rw [hr] at hc
      cases hc
    · rw [hr] at hf hc ⊢
      exact h.steady u hu hf c hc
  · intro u hu hud hf m hm hk hdep
    have hmd := Variable.isDerived_of_isMutable hk
    rcases record_modified_cases (p := p) (b := b) hg hv hd hu with
      ⟨rfl, _⟩ | ⟨_, _, hr⟩ | ⟨_, hindep, hr⟩
    · rw [hud] at hd
      cases hd
    · -- It was unsettled just now, and the flag is the answer of the roots.
      have hmay : (p.modified g v.name b).mayEqualStart g u = true := by
        rw [hr] at hf
        simpa [Record.unsettled] using hf
      exact unmoved_of_mayEqualStart (hvalued m hm hmd) hm hk hdep hmay
    · rw [hr] at hf
      have hbefore := h.rooted u hu hud hf m hm hk hdep
      rcases record_modified_cases (p := p) (b := b) hg hv hd hm with
        ⟨rfl, _⟩ | ⟨hder, _⟩ | ⟨_, _, hrm⟩
      · rw [hindep hud] at hdep
        cases hdep
      · rw [hmd] at hder
        cases hder
      · unfold Unmoved peek at hbefore ⊢
        rw [hrm]
        exact hbefore

theorem Aligned.written (h : p.Aligned g) (hv : v ∈ g.declared) (hd : v.isDerived = false)
    (observe : Bool) (b : Bool) : (p.written g observe v b).Aligned g := by
  have hmodified := h.modified hg hv hd b
  unfold Period.written
  split
  · refine hmodified.observed hg hv ?_
    intro c hc
    rw [peek_modified_self hg hv hd] at hc
    exact (Option.some.inj hc).symm
  · exact hmodified

/-- **The flags of a period always fit its values.** -/
theorem kept_aligned : Kept g (Aligned g) where
  blank := by
    intro time
    refine ⟨?_, ?_, ?_⟩
    · intro v _ _ hf
      cases hf
    · intro v _ _ b hb
      cases hb
    · intro v _ _ _ m _ _ _
      rfl
  observed := fun _ _ _ hv hb h => h.observed hg hv hb
  modified := fun _ _ b hv hm h => h.modified hg hv (Variable.isDerived_of_isMutable hm) b
  overridden := fun _ _ ho h => h.overridden ho
  fired := by
    intro p t ht hk _ h
    have hd := Variable.isDerived_of_isTriggered hk
    have hantecedent : (p.recordAntecedent g t).Aligned g := ⟨h.valued, h.steady, h.rooted⟩
    have htriggered : (p.triggered g t).Aligned g := hantecedent.modified hg ht hd true
    unfold fired
    split
    · refine htriggered.observed hg ht ?_
      intro c hc
      rw [peek_triggered_self hg ht hd] at hc
      exact (Option.some.inj hc).symm
    · exact htriggered

theorem record_written_of_apart (hv : v ∈ g.declared) {u : Variable} (hu : u ∈ g.declared)
    (hne : u ≠ v) (hdep : u.isDerived = true → u.dependsOn v.name = false) (observe b : Bool) :
    (p.written g observe v b).record u.name = p.record u.name := by
  have hname : v.name ≠ u.name := fun he => hne (hg.eq_of_name hu hv he.symm)
  have hmodified : (p.modified g v.name b).record u.name = p.record u.name :=
    record_modified_other hg hu hname hdep
  unfold written
  split
  · rw [record_observed_of_ne hg hv hu hne, hmodified]
  · exact hmodified

theorem peek_written_self (hv : v ∈ g.declared) (hd : v.isDerived = false) (observe b : Bool) :
    (p.written g observe v b).peek v.name = some b := by
  unfold written
  split
  · rw [peek, record_observed_self, Record.peek_observed]
  · exact peek_modified_self hg hv hd

/-- The value of a persistent latch is not stale. -/
def Fresh (g : Graph) (p : Period) : Prop :=
  ∀ t ∈ g.declared, t.isPersistent = true → ∀ b, (p.record t.name).currentValue = some b →
    (p.record t.name).modifiedSinceObserved = false

theorem record_modified_of_ne {u : Variable} (hu : u ∈ g.declared) (hd : u.isDerived = false)
    (hv : v ∈ g.declared) (hne : u ≠ v) :
    (p.modified g v.name b).record u.name = p.record u.name := by
  refine record_modified_other hg hu (fun he => hne (hg.eq_of_name hu hv he.symm)) ?_
  rw [hd]
  exact nofun

theorem record_fired_of_apart {t u : Variable} (ht : t ∈ g.declared) (hu : u ∈ g.declared)
    (hne : u ≠ t) (hdep : u.isDerived = true → u.dependsOn t.name = false) :
    (p.fired g t).record u.name = p.record u.name := by
  have hname : t.name ≠ u.name := fun he => hne (hg.eq_of_name hu ht he.symm)
  have htriggered : (p.triggered g t).record u.name = p.record u.name :=
    record_modified_other (p := p.recordAntecedent g t) hg hu hname hdep
  unfold Period.fired
  split
  · rw [record_observed_of_ne hg ht hu hne, htriggered]
  · exact htriggered

theorem record_fired_of_ne {t u : Variable} (ht : t ∈ g.declared) (hu : u ∈ g.declared)
    (hd : u.isDerived = false) (hne : u ≠ t) : (p.fired g t).record u.name = p.record u.name := by
  refine record_fired_of_apart hg ht hu hne ?_
  rw [hd]
  exact nofun

theorem peek_fired_self {t : Variable} (ht : t ∈ g.declared) (hk : t.isTriggered = true) :
    (p.fired g t).peek t.name = some true := by
  unfold Period.fired
  split
  · rw [peek, record_observed_self, Record.peek_observed]
  · exact peek_triggered_self hg ht (Variable.isDerived_of_isTriggered hk)

theorem Fresh.fired {t : Variable} (h : p.Fresh g) (ht : t ∈ g.declared) :
    (p.fired g t).Fresh g := by
  intro u hu huk c hc
  by_cases hne : u = t
  · -- It is seen at once.
    subst hne
    rw [Period.fired, if_pos huk, record_observed_self]
    rfl
  · have hd := Variable.isDerived_of_isTriggered (Variable.isTriggered_of_isPersistent huk)
    rw [record_fired_of_ne hg ht hu hd hne] at hc ⊢
    exact h u hu huk c hc

/-- **The value of a persistent latch is never stale.** -/
theorem kept_fresh : Kept g (Fresh g) where
  blank := by
    intro time t _ _ b hb
    cases hb
  observed := by
    intro p v b hv _ h t ht hk c hc
    by_cases hne : t = v
    · subst hne
      rw [record_observed_self]
      rfl
    · rw [record_observed_of_ne hg hv ht hne] at hc ⊢
      exact h t ht hk c hc
  modified := by
    intro p v b hv hm h t ht hk c hc
    have htriggered := Variable.isTriggered_of_isPersistent hk
    have hne : t ≠ v := (Variable.ne_of_isTriggered hm htriggered).symm
    rw [record_modified_of_ne hg ht (Variable.isDerived_of_isTriggered htriggered) hv hne] at hc ⊢
    exact h t ht hk c hc
  overridden := by
    intro p o ho h t ht hk c hc
    rw [(record_overridden_now p o t.name).2] at hc
    rw [record_overridden]
    cases o.get? t.name <;> exact h t ht hk c hc
  fired := fun _ _ ht _ _ h => h.fired hg ht

/-- The value of a derived variable is not stale: to modify what it depends on forgets it. -/
def Settled (g : Graph) (p : Period) : Prop :=
  ∀ d ∈ g.declared, d.isDerived = true → ∀ b, (p.record d.name).currentValue = some b →
    (p.record d.name).modifiedSinceObserved = false

theorem Settled.observed (h : p.Settled g) (hv : v ∈ g.declared) (b : Bool) :
    (p.observed v.name b).Settled g := by
  intro d hd hder c hc
  by_cases hne : d = v
  · subst hne
    rw [record_observed_self]
    rfl
  · rw [record_observed_of_ne hg hv hd hne] at hc ⊢
    exact h d hd hder c hc

theorem Settled.modified (h : p.Settled g) (hv : v ∈ g.declared) (hd : v.isDerived = false)
    (b : Bool) : (p.modified g v.name b).Settled g := by
  intro d hmem hder c hc
  rcases record_modified_cases (p := p) (b := b) hg hv hd hmem with
    ⟨rfl, _⟩ | ⟨_, _, hr⟩ | ⟨_, _, hr⟩
  · rw [hder] at hd
    cases hd
  · rw [hr] at hc
    cases hc
  · rw [hr] at hc ⊢
    exact h d hmem hder c hc

/-- **The value of a derived variable is never stale.** -/
theorem kept_settled : Kept g (Settled g) where
  blank := by
    intro time d _ _ b hb
    cases hb
  observed := fun _ _ b hv _ h => h.observed hg hv b
  modified := fun _ _ b hv hm h => h.modified hg hv (Variable.isDerived_of_isMutable hm) b
  overridden := by
    intro p o _ h d hd hder c hc
    rw [(record_overridden_now p o d.name).2] at hc
    rw [record_overridden]
    cases o.get? d.name <;> exact h d hd hder c hc
  fired := by
    intro p t ht hk _ h
    have htriggered : (p.triggered g t).Settled g :=
      Settled.modified (p := p.recordAntecedent g t) hg h ht (Variable.isDerived_of_isTriggered hk)
        true
    unfold Period.fired
    split
    · exact htriggered.observed hg ht true
    · exact htriggered

end

end Period

end Chronicle
