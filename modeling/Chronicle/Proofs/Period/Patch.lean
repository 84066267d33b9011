import Chronicle.Proofs.Period.Ledger

/-!
# What stays of a period

What is known of a start is known for good (`Aligned.knownStart_edited`).  An observation fixes the
start value anew as long as the variable has not changed since the start; but until then what is
known now is what is known of the start (`Aligned.peek_eq_knownStart`), and nothing else is
observed.  Once a variable has changed no observation touches its start, and a derived variable
whose flag falls again has no current value left that could.

From elsewhere a period is only ever patched (`Patched`): start values that were open are fixed.
-/

namespace Chronicle

/-- The record is the same, but for a start value that has been fixed if it was open. -/
def Record.Patched (r r' : Record) : Prop :=
  r' = r ∨ r.isOpen = true ∧ ∃ b, r' = { r with startOverride := some b }

theorem Record.Patched.trans {r r' r'' : Record} (h : r.Patched r') (h' : r'.Patched r'') :
    r.Patched r'' := by
  rcases h with rfl | ⟨ho, b, rfl⟩
  · exact h'
  · rcases h' with rfl | ⟨ho', _⟩
    · exact Or.inr ⟨ho, b, rfl⟩
    · -- What has been fixed is not open any more.
      cases ho'

namespace Period

variable {g : Graph} {p q r : Period} {v u : Variable} {b c : Bool} {o : Valuation}

/-- The periods are the same, but for start values that have been fixed where they were open. -/
structure Patched (p q : Period) : Prop where
  time : q.time = p.time
  antecedents : q.antecedents = p.antecedents
  record : ∀ name, (p.record name).Patched (q.record name)

theorem Patched.refl (p : Period) : p.Patched p := ⟨rfl, rfl, fun _ => Or.inl rfl⟩

theorem Patched.trans (h : p.Patched q) (h' : q.Patched r) : p.Patched r where
  time := h'.time.trans h.time
  antecedents := h'.antecedents.trans h.antecedents
  record := fun name => (h.record name).trans (h'.record name)

theorem Accepts.patched (h : p.Accepts o) : p.Patched (p.overridden o.entries) where
  time := time_overridden p o.entries
  antecedents := antecedents_overridden p o.entries
  record := by
    intro name
    cases hn : o.get? name with
    | none => exact Or.inl (record_overridden_none hn)
    | some b =>
      exact Or.inr ⟨h name (Table.contains_iff.mpr ⟨b, hn⟩), b, record_overridden_some hn⟩

/-! ### What is known of a start -/

theorem Accepts.knownStart_overridden (h : p.Accepts o) {name : String}
    (hs : (p.record name).knownStart = some c) :
    ((p.overridden o.entries).record name).knownStart = some c := by
  rcases h.patched.record name with hr | ⟨ho, _⟩
  · rw [hr]
    exact hs
  · rw [(canOverride_iff.mp ho).1] at hs
    cases hs

variable (hg : g.WellFormed)

include hg

theorem Aligned.knownStart_observed (h : p.Aligned g) (hv : v ∈ g.declared)
    (hb : ∀ c, p.peek v.name = some c → c = b) (hu : u ∈ g.declared)
    (hs : (p.record u.name).knownStart = some c) :
    ((p.observed v.name b).record u.name).knownStart = some c := by
  by_cases hne : u = v
  · subst hne
    rw [record_observed_self, Record.knownStart_observed]
    cases hf : (p.record u.name).modifiedSinceStart with
    | true => exact hs
    | false =>
      have hpeek : p.peek u.name = some c := (h.peek_eq_knownStart hu hf).trans hs
      rw [if_neg Bool.false_ne_true, h.startOverride_eq hu hb hf, hb c hpeek]
  · rw [record_observed_of_ne hg hv hu hne]
    exact hs

theorem knownStart_modified (hv : v ∈ g.declared) (hd : v.isDerived = false)
    (hu : u ∈ g.declared) :
    ((p.modified g v.name b).record u.name).knownStart = (p.record u.name).knownStart := by
  rcases record_modified_cases (p := p) (b := b) hg hv hd hu with
    ⟨_, hr⟩ | ⟨_, _, hr⟩ | ⟨_, _, hr⟩
  · rw [hr]
    rfl
  · rw [hr]
    rfl
  · rw [hr]

theorem knownStart_fired (hv : v ∈ g.declared) (hk : v.isTriggered = true)
    (hu : u ∈ g.declared) :
    ((p.fired g v).record u.name).knownStart = (p.record u.name).knownStart := by
  have hd := Variable.isDerived_of_isTriggered hk
  have htriggered : ((p.triggered g v).record u.name).knownStart =
      (p.record u.name).knownStart :=
    knownStart_modified (p := p.recordAntecedent g v) hg hv hd hu
  unfold fired
  split
  · by_cases hne : u = v
    · -- The latch is seen when it has changed.
      subst hne
      have hf : ((p.triggered g u).record u.name).modifiedSinceStart = true :=
        congrArg Record.modifiedSinceStart
          (record_modified_self (p := p.recordAntecedent g u) (b := true) hg hu hd)
      rw [record_observed_self, Record.knownStart_observed, hf, if_pos rfl, htriggered]
    · rw [record_observed_of_ne hg hv hu hne, htriggered]
  · exact htriggered

/-- **What is known of a start stays known**, whatever happens to the period. -/
theorem Aligned.knownStart_edited (h : p.Aligned g) (he : Edited g p q) (hu : u ∈ g.declared)
    (hs : (p.record u.name).knownStart = some c) : (q.record u.name).knownStart = some c := by
  cases he with
  | untouched => exact hs
  | observed v b hv hb => exact h.knownStart_observed hg hv hb hu hs
  | modified v b hv hm =>
    rw [knownStart_modified hg hv (Variable.isDerived_of_isMutable hm) hu]
    exact hs
  | fired t ht hk _ =>
    rw [knownStart_fired hg ht hk hu]
    exact hs
  | overridden o ho => exact ho.knownStart_overridden hs

end Period

end Chronicle
