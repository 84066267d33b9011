import Chronicle.Proofs.World.Reconciled

/-!
# When a derived value is trusted

A derived variable is flagged anew only when something beneath it is modified, though its roots also
change otherwise: they are observed, and their starts are fixed.  That does no harm, because a root
that has not changed since the start is where it started, whatever is learned of it
(`Aligned.atStart`), and of one that has changed neither an observation nor an override changes the
value or the start.  So as long as the flag is down, every root beneath is where it started, as far
as the period knows (`kept_trusting`).
-/

namespace Chronicle

namespace Period

variable {g : Graph} {p q : Period} {d r t v : Variable} {b : Bool} {o : Valuation}

/-- Nothing is known of the root, or it is where it is taken to have started. -/
def AtStart (p : Period) (r : Variable) : Prop :=
  p.peek r.name = none ∨ p.peek r.name = p.assumedStart r

/-- All roots of a derived variable that is not flagged are where they started. -/
def Trusting (g : Graph) (p : Period) : Prop :=
  ∀ d ∈ g.declared, d.isDerived = true → (p.record d.name).modifiedSinceStart = false →
    ∀ r ∈ g.rootsOf d, p.AtStart r

theorem mem_rootsOf :
    r ∈ g.rootsOf d ↔ r ∈ g.declared ∧ d.dependsOn r.name = true ∧ r.isDerived = false := by
  rw [Graph.rootsOf, List.mem_filter, Bool.and_eq_true, Bool.not_eq_true']

theorem atStart_congr (h : q.record r.name = p.record r.name) : q.AtStart r ↔ p.AtStart r := by
  unfold AtStart assumedStart peek
  rw [h]

/-- **What has not changed is where it started.** -/
theorem Aligned.atStart (h : p.Aligned g) (hr : r ∈ g.declared)
    (hf : (p.record r.name).modifiedSinceStart = false) : p.AtStart r := by
  unfold AtStart assumedStart
  rw [h.peek_eq_knownStart hr hf]
  cases (p.record r.name).knownStart with
  | none => exact Or.inl rfl
  | some c => exact Or.inr rfl

theorem atStart_of_mayEqualStart (h : p.mayEqualStart g d = true) (hr : r ∈ g.rootsOf d) :
    p.AtStart r := by
  have hsame := List.all_eq_true.mp h r hr
  unfold AtStart
  cases hs : p.assumedStart r with
  | none =>
    rw [hs] at hsame
    cases hsame
  | some start =>
    cases hp : p.peek r.name with
    | none => exact Or.inl rfl
    | some current =>
      rw [hs, hp] at hsame
      exact Or.inr (congrArg some (beq_iff_eq.mp hsame))

section

variable (hg : g.WellFormed)

include hg

theorem Aligned.atStart_observed (h : p.Aligned g) (hv : v ∈ g.declared)
    (hb : ∀ c, p.peek v.name = some c → c = b) (hr : r ∈ g.declared) (hd : r.isDerived = false)
    (hbefore : p.AtStart r) : (p.observed v.name b).AtStart r := by
  cases hf : (p.record r.name).modifiedSinceStart with
  | false =>
    refine (h.observed hg hv hb).atStart hr ?_
    rw [modifiedSinceStart_observed, hf]
  | true =>
    by_cases hne : r = v
    · subst hne
      -- It has been written, and what is seen is what was written.
      obtain ⟨c, hc⟩ := h.valued r hr hd hf
      have hpeek : p.peek r.name = some c := (peek_of_modified hf).trans hc
      have hsame : (p.observed r.name b).peek r.name = p.peek r.name := by
        rw [peek, record_observed_self, Record.peek_observed, hpeek, hb c hpeek]
      have hstart : (p.observed r.name b).assumedStart r = p.assumedStart r := by
        rw [assumedStart, assumedStart, record_observed_self, Record.knownStart_observed, hf,
          if_pos rfl]
      unfold AtStart
      rw [hsame, hstart]
      exact hbefore
    · exact (atStart_congr (record_observed_of_ne hg hv hr hne)).mpr hbefore

omit hg in
theorem Aligned.atStart_overridden (h : p.Aligned g) (ho : p.Accepts o) (hr : r ∈ g.declared)
    (hd : r.isDerived = false) (hbefore : p.AtStart r) : (p.overridden o.entries).AtStart r := by
  cases hf : (p.record r.name).modifiedSinceStart with
  | false =>
    refine (h.overridden ho).atStart hr ?_
    rw [(record_overridden_now p o r.name).1, hf]
  | true =>
    refine (atStart_congr (record_overridden_none ?_)).mpr hbefore
    by_contra hn
    obtain ⟨c, hc⟩ := Option.ne_none_iff_exists'.mp hn
    have hopen := ho r.name (Table.contains_iff.mpr ⟨c, hc⟩)
    rw [h.unmodified_of_canOverride hr hd hopen] at hf
    cases hf

theorem Trusting.observed (h : p.Trusting g) (ha : p.Aligned g) (hv : v ∈ g.declared)
    (hb : ∀ c, p.peek v.name = some c → c = b) : (p.observed v.name b).Trusting g := by
  intro d hd hder hf r hr
  rw [modifiedSinceStart_observed] at hf
  obtain ⟨hmem, _, hroot⟩ := mem_rootsOf.mp hr
  exact ha.atStart_observed hg hv hb hmem hroot (h d hd hder hf r hr)

/-- A modification flags what is derived from it anew, and is not beneath anything else. -/
theorem Trusting.modified (h : p.Trusting g) (hv : v ∈ g.declared) (hd : v.isDerived = false)
    (b : Bool) : (p.modified g v.name b).Trusting g := by
  intro d hmem hder hf r hr
  rcases record_modified_cases (p := p) (b := b) hg hv hd hmem with
    ⟨rfl, _⟩ | ⟨_, _, hrecord⟩ | ⟨_, hindep, hrecord⟩
  · rw [hder] at hd
    cases hd
  · have hmay : (p.modified g v.name b).mayEqualStart g d = true := by
      rw [hrecord] at hf
      simpa [Record.unsettled] using hf
    exact atStart_of_mayEqualStart hmay hr
  · rw [hrecord] at hf
    obtain ⟨hrmem, hdep, hroot⟩ := mem_rootsOf.mp hr
    have hne : r ≠ v := by
      rintro rfl
      rw [hindep hder] at hdep
      cases hdep
    have hsame := record_modified_of_ne (p := p) (b := b) hg hrmem hroot hv hne
    exact (atStart_congr hsame).mpr (h d hmem hder hf r hr)

/-- **What is not flagged rests on what has not moved**, whatever happens to the period. -/
theorem kept_trusting : Kept g fun p => p.Aligned g ∧ p.Trusting g where
  blank := fun time => ⟨(kept_aligned hg).blank time, fun _ _ _ _ _ _ => Or.inl rfl⟩
  observed := fun p v b hv hb h =>
    ⟨(kept_aligned hg).observed p v b hv hb h.1, h.2.observed hg h.1 hv hb⟩
  modified := fun p v b hv hm h =>
    ⟨(kept_aligned hg).modified p v b hv hm h.1,
      h.2.modified hg hv (Variable.isDerived_of_isMutable hm) b⟩
  overridden := by
    intro p o ho h
    refine ⟨(kept_aligned hg).overridden p o ho h.1, ?_⟩
    intro d hd hder hf r hr
    rw [(record_overridden_now p o d.name).1] at hf
    obtain ⟨hmem, _, hroot⟩ := mem_rootsOf.mp hr
    exact h.1.atStart_overridden ho hmem hroot (h.2 d hd hder hf r hr)
  fired := by
    intro p t ht hk hnew h
    refine ⟨(kept_aligned hg).fired p t ht hk hnew h.1, ?_⟩
    have hd := Variable.isDerived_of_isTriggered hk
    have hantecedent : (p.recordAntecedent g t).Aligned g := ⟨h.1.valued, h.1.steady, h.1.rooted⟩
    have haligned : (p.triggered g t).Aligned g := hantecedent.modified hg ht hd true
    have htrusting : (p.triggered g t).Trusting g :=
      Trusting.modified (p := p.recordAntecedent g t) hg h.2 ht hd true
    unfold fired
    split
    · refine htrusting.observed hg haligned ht ?_
      intro c hc
      rw [peek_triggered_self hg ht hd] at hc
      exact (Option.some.inj hc).symm
    · exact htrusting

end

end Period

namespace World

variable {g : Graph} {w : World}

/-- **A derived value is trusted only while its roots are where they started.**  In every period of
a reachable world, if a derived variable is not flagged as changed since the start, then of each of
its roots nothing is known, or it has its known start; a mutable without one is taken to have
started at its default.  And a mutable or latch without a current value is not flagged. -/
theorem unflagged_from_start (hg : g.IsValid) (hw : Reachable g w) (time : Int) :
    (∀ d ∈ g.declared, d.isDerived = true →
      ((w.timeline.period time).record d.name).modifiedSinceStart = false →
      ∀ r ∈ g.rootsOf d, (w.timeline.period time).peek r.name = none ∨
        (w.timeline.period time).peek r.name =
          ((w.timeline.period time).record r.name).knownStart.or
            (if r.isMutable then some r.default else none)) ∧
    ∀ v ∈ g.declared, v.isDerived = false →
      ((w.timeline.period time).record v.name).currentValue = none →
      ((w.timeline.period time).record v.name).modifiedSinceStart = false := by
  have hwell := hg.wellFormed
  obtain ⟨haligned, htrusting⟩ := hw.forall_period hwell (Period.kept_trusting hwell) time
  refine ⟨htrusting, ?_⟩
  intro v hv hd hnone
  by_contra hf
  rw [Bool.not_eq_false] at hf
  obtain ⟨b, hb⟩ := haligned.valued v hv hd hf
  rw [hnone] at hb
  cases hb

/-- The lamp in the cellar was lit and put out again; nobody has touched the key. -/
def lampOut : World :=
  (start Graph.cellar .standard none).after [.read Graph.Cellar.glow.symbol,
    .write Graph.Cellar.lamp.symbol true, .write Graph.Cellar.lamp.symbol false]

/-- The glow is trusted again, as dark as it was seen first: the lamp is where it started, and
nothing is known of the key. -/
theorem unflagged_from_start_lampOut :
    (lampOut.current.record "glow").modifiedSinceStart = false ∧
      lampOut.current.peek "glow" = some false ∧
      (lampOut.current.record "lamp").modifiedSinceStart = true ∧
      (lampOut.current.peek "lamp" = none ∨
        lampOut.current.peek "lamp" =
          (lampOut.current.record "lamp").knownStart.or (some false)) ∧
      (lampOut.current.record "key").modifiedSinceStart = false := by
  have hreachable : Reachable Graph.cellar lampOut := ⟨.standard, none, _, rfl⟩
  obtain ⟨hroots, hflags⟩ := unflagged_from_start Graph.cellar_isValid hreachable 0
  refine ⟨by decide +kernel, by decide +kernel, by decide +kernel, ?_, ?_⟩
  · exact hroots Graph.Cellar.glow (by simp [Graph.cellar]) rfl (by decide +kernel)
      Graph.Cellar.lamp (by simp [Period.mem_rootsOf, Graph.cellar]; decide)
  · exact hflags Graph.Cellar.key (by simp [Graph.cellar]) rfl (by decide +kernel)

end World

end Chronicle
