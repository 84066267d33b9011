import Chronicle.Proofs.Period.Leaving
import Chronicle.Proofs.World.Operate

/-!
# Periods in which every write is seen

If every write observes what it replaces and what it writes, the record of a mutable has three more
virtues (`Noted`): its value is never stale, a mutable that has a value has a known start, and an
irreversible one that did not start from its default is not there now.  So what is known of a
mutable leaves the period, and a start that is not known is open.

`Attended` is what one read or write, or its aftermath, does to a period.  To the record of a
mutable it does one of four things (`Attended.record_cases`).  It keeps the virtues
(`Noted.attended`) and takes no irreversible mutable back to its default (`Attended.peek_lasting`);
so does a chain of such edits.
-/

namespace Chronicle

namespace Record

/-- The record of a write that observes what it replaces and what it writes. -/
def overwritten (r : Record) (prior b : Bool) : Record :=
  ((r.observed prior).modified b).observed b

end Record

namespace Period

open Relation (ReflTransGen)
open World (forbids)

variable {g : Graph} {p q : Period} {v m : Variable} {b : Bool}

/-- What happens to a period at once in a history in which every write observes. -/
inductive Attended (g : Graph) (p : Period) : Period → Prop
  | observed (v : Variable) (b : Bool) (hv : v ∈ g.declared)
      (h : ∀ c, p.peek v.name = some c → c = b) : Attended g p (p.observed v.name b)
  | overwritten (v : Variable) (prior b : Bool) (hv : v ∈ g.declared) (hm : v.isMutable = true)
      (h : ∀ c, p.peek v.name = some c → c = prior) (hfree : forbids v prior b = false) :
      Attended g p ((p.observed v.name prior).written g true v b)
  | fired (t : Variable) (ht : t ∈ g.declared) (hk : t.isTriggered = true)
      (h : p.peek t.name ≠ some true) : Attended g p (p.fired g t)
  | overridden (o : Valuation) (h : p.Accepts o) : Attended g p (p.overridden o.entries)

/-- Every write to a mutable of the period was seen. -/
structure Noted (g : Graph) (p : Period) : Prop extends p.Aligned g where
  fresh : ∀ v ∈ g.declared, v.isMutable = true → ∀ b, (p.record v.name).currentValue = some b →
    (p.record v.name).modifiedSinceObserved = false
  begun : ∀ v ∈ g.declared, v.isMutable = true → ∀ b, (p.record v.name).currentValue = some b →
    ∃ c, (p.record v.name).knownStart = some c
  lasting : ∀ v ∈ g.declared, v.isMutable = true → v.isReversible = false →
    (p.record v.name).knownStart = some (!v.default) →
    ∀ b, (p.record v.name).currentValue = some b → b = !v.default

theorem noted_blank (hg : g.WellFormed) (time : Int) : (blank time).Noted g where
  toAligned := (kept_aligned hg).blank time
  fresh := fun _ _ _ _ hb => nomatch hb
  begun := fun _ _ _ _ hb => nomatch hb
  lasting := fun _ _ _ _ hs => nomatch hs

theorem eq_of_not_forbids (hr : v.isReversible = false) (h : forbids v (!v.default) b = false) :
    b = !v.default := by
  unfold forbids at h
  rw [hr] at h
  cases b <;> cases hd : v.default <;> simp_all

theorem Aligned.knownStart_observed_cases (h : p.Aligned g) (hm : m ∈ g.declared)
    (hmut : m.isMutable = true) (hb : ∀ c, p.peek m.name = some c → c = b) :
    ((p.record m.name).observed b).knownStart = some b ∨
      (((p.record m.name).observed b).knownStart = (p.record m.name).knownStart ∧
        (p.record m.name).currentValue = some b) := by
  rw [Record.knownStart_observed]
  cases hf : (p.record m.name).modifiedSinceStart with
  | false =>
    rw [if_neg Bool.false_ne_true]
    exact Or.inl (h.startOverride_eq hm hb hf)
  | true =>
    rw [if_pos rfl]
    obtain ⟨c, hc⟩ := h.valued m hm (Variable.isDerived_of_isMutable hmut) hf
    have hcb : c = b := hb c ((peek_of_modified hf).trans hc)
    exact Or.inr ⟨rfl, hcb ▸ hc⟩

theorem Noted.exists_knownStart_observed (h : p.Noted g) (hm : m ∈ g.declared)
    (hmut : m.isMutable = true) (hb : ∀ c, p.peek m.name = some c → c = b) :
    ∃ s, ((p.record m.name).observed b).knownStart = some s := by
  rcases h.toAligned.knownStart_observed_cases hm hmut hb with hs | ⟨hs, hc⟩
  · exact ⟨b, hs⟩
  · rw [hs]
    exact h.begun m hm hmut b hc

theorem Noted.eq_of_observed (h : p.Noted g) (hm : m ∈ g.declared) (hmut : m.isMutable = true)
    (hrev : m.isReversible = false) (hb : ∀ c, p.peek m.name = some c → c = b)
    (hs : ((p.record m.name).observed b).knownStart = some (!m.default)) : b = !m.default := by
  rcases h.toAligned.knownStart_observed_cases hm hmut hb with hs' | ⟨hs', hc⟩
  · rw [hs] at hs'
    exact (Option.some.inj hs').symm
  · rw [hs'] at hs
    exact h.lasting m hm hmut hrev hs b hc

/-- What is known of a mutable leaves a period in which every write was seen. -/
theorem Noted.outgoing (h : p.Noted g) (hm : m ∈ g.declared) (hmut : m.isMutable = true) :
    (p.record m.name).outgoing = p.peek m.name :=
  Record.outgoing_eq_peek (h.fresh m hm hmut)

theorem Noted.canOverride (h : p.Noted g) (hm : m ∈ g.declared) (hmut : m.isMutable = true)
    (hs : (p.record m.name).knownStart = none) : p.canOverride m.name = true := by
  refine canOverride_iff.mpr ⟨hs, ?_⟩
  by_contra hc
  obtain ⟨b, hb⟩ := Option.ne_none_iff_exists'.mp hc
  obtain ⟨c, hc⟩ := h.begun m hm hmut b hb
  rw [hs] at hc
  cases hc

theorem Noted.peek_of_knownStart (h : p.Noted g) (hm : m ∈ g.declared)
    (hmut : m.isMutable = true) (hrev : m.isReversible = false)
    (hs : (p.record m.name).knownStart = some (!m.default)) :
    p.peek m.name = some (!m.default) := by
  cases hf : (p.record m.name).modifiedSinceStart with
  | false => exact (h.peek_eq_knownStart hm hf).trans hs
  | true =>
    obtain ⟨b, hb⟩ := h.valued m hm (Variable.isDerived_of_isMutable hmut) hf
    rw [peek_of_modified hf, hb, h.lasting m hm hmut hrev hs b hb]

section

variable (hg : g.WellFormed)

include hg

theorem record_overwritten (hv : v ∈ g.declared) (hd : v.isDerived = false) (prior b : Bool) :
    ((p.observed v.name prior).written g true v b).record v.name =
      (p.record v.name).overwritten prior b := by
  rw [written, if_pos rfl, record_observed_self, record_modified_self hg hv hd,
    record_observed_self]
  rfl

theorem record_overwritten_of_ne (hv : v ∈ g.declared) (hm : m ∈ g.declared)
    (hd : m.isDerived = false) (hne : m ≠ v) (prior b : Bool) :
    ((p.observed v.name prior).written g true v b).record m.name = p.record m.name := by
  have hdep : m.isDerived = true → m.dependsOn v.name = false := by
    rw [hd]
    exact nofun
  rw [record_written_of_apart hg hv hm hne hdep, record_observed_of_ne hg hv hm hne]

/-- **What can happen to the record of a mutable**: nothing, it is seen, it is written, or its open
start is fixed. -/
theorem Attended.record_cases (h : Attended g p q) (hm : m ∈ g.declared)
    (hmut : m.isMutable = true) :
    q.record m.name = p.record m.name ∨
      (∃ b, (∀ c, p.peek m.name = some c → c = b) ∧
        q.record m.name = (p.record m.name).observed b) ∨
      (∃ prior b, (∀ c, p.peek m.name = some c → c = prior) ∧ forbids m prior b = false ∧
        q.record m.name = (p.record m.name).overwritten prior b) ∨
      ∃ b, p.canOverride m.name = true ∧
        q.record m.name = { p.record m.name with startOverride := some b } := by
  have hd := Variable.isDerived_of_isMutable hmut
  cases h with
  | observed v b hv hb =>
    by_cases hne : m = v
    · subst hne
      exact Or.inr (Or.inl ⟨b, hb, record_observed_self p m b⟩)
    · exact Or.inl (record_observed_of_ne hg hv hm hne)
  | overwritten v prior b hv _ hb hfree =>
    by_cases hne : m = v
    · subst hne
      exact Or.inr (Or.inr (Or.inl ⟨prior, b, hb, hfree, record_overwritten hg hm hd prior b⟩))
    · exact Or.inl (record_overwritten_of_ne hg hv hm hd hne prior b)
  | fired t ht hk _ =>
    exact Or.inl (record_fired_of_ne hg ht hm hd (Variable.ne_of_isTriggered hmut hk))
  | overridden o ho =>
    cases hn : o.get? m.name with
    | none => exact Or.inl (record_overridden_none hn)
    | some b =>
      exact Or.inr (Or.inr (Or.inr
        ⟨b, ho m.name (Table.contains_iff.mpr ⟨b, hn⟩), record_overridden_some hn⟩))

theorem Aligned.attended (h : p.Aligned g) (ha : Attended g p q) : q.Aligned g := by
  cases ha with
  | observed v b hv hb => exact h.observed hg hv hb
  | overwritten v prior b hv hm hb _ =>
    exact (h.observed hg hv hb).written hg hv (Variable.isDerived_of_isMutable hm) true b
  | fired t ht hk hp => exact (kept_aligned hg).fired p t ht hk hp h
  | overridden o ho => exact h.overridden ho

/-- **What happens in a history of seen writes keeps them seen.** -/
theorem Noted.attended (h : p.Noted g) (ha : Attended g p q) : q.Noted g where
  toAligned := h.toAligned.attended hg ha
  fresh := by
    intro m hm hmut c hc
    rcases ha.record_cases hg hm hmut with
      hr | ⟨b, _, hr⟩ | ⟨prior, b, _, _, hr⟩ | ⟨b, ho, hr⟩
    · rw [hr] at hc ⊢
      exact h.fresh m hm hmut c hc
    · rw [hr]
      rfl
    · rw [hr]
      rfl
    · rw [hr] at hc ⊢
      exact h.fresh m hm hmut c hc
  begun := by
    intro m hm hmut c hc
    rcases ha.record_cases hg hm hmut with
      hr | ⟨b, hb, hr⟩ | ⟨prior, b, hb, _, hr⟩ | ⟨b, _, hr⟩
    · rw [hr] at hc ⊢
      exact h.begun m hm hmut c hc
    · rw [hr]
      exact h.exists_knownStart_observed hm hmut hb
    · rw [hr]
      exact h.exists_knownStart_observed hm hmut hb
    · rw [hr]
      exact ⟨b, rfl⟩
  lasting := by
    intro m hm hmut hrev hs c hc
    rcases ha.record_cases hg hm hmut with
      hr | ⟨b, hb, hr⟩ | ⟨prior, b, hb, hfree, hr⟩ | ⟨b, ho, hr⟩
    · rw [hr] at hs hc
      exact h.lasting m hm hmut hrev hs c hc
    · rw [hr] at hs hc
      rw [← Option.some.inj hc]
      exact h.eq_of_observed hm hmut hrev hb hs
    · rw [hr] at hs hc
      rw [h.eq_of_observed hm hmut hrev hb hs] at hfree
      rw [← Option.some.inj hc]
      exact eq_of_not_forbids hrev hfree
    · rw [hr] at hc
      rw [show (p.record m.name).currentValue = none from (canOverride_iff.mp ho).2] at hc
      cases hc

/-- **A permanent change stays** in its period. -/
theorem Attended.peek_lasting (h : Attended g p q) (hm : m ∈ g.declared)
    (hmut : m.isMutable = true) (hrev : m.isReversible = false)
    (hp : p.peek m.name = some (!m.default)) : q.peek m.name = some (!m.default) := by
  rcases h.record_cases hg hm hmut with
    hr | ⟨b, hb, hr⟩ | ⟨prior, b, hb, hfree, hr⟩ | ⟨b, ho, hr⟩
  · rw [peek, hr]
    exact hp
  · rw [peek, hr, Record.peek_observed, hb _ hp]
  · rw [← hb _ hp] at hfree
    rw [peek, hr, eq_of_not_forbids hrev hfree]
    rfl
  · -- What is known is not open.
    obtain ⟨hs, hc⟩ := canOverride_iff.mp ho
    rw [peek, Record.peek, hs, hc, ite_self] at hp
    cases hp

/-- What a chain of edits keeps: every write was seen, and permanent changes stay. -/
theorem Noted.attended_chain (h : p.Noted g) (ha : ReflTransGen (Attended g) p q) : q.Noted g := by
  induction ha with
  | refl => exact h
  | tail _ hs ih => exact ih.attended hg hs

theorem peek_lasting_chain (ha : ReflTransGen (Attended g) p q) (hm : m ∈ g.declared)
    (hmut : m.isMutable = true) (hrev : m.isReversible = false)
    (hp : p.peek m.name = some (!m.default)) : q.peek m.name = some (!m.default) := by
  induction ha with
  | refl => exact hp
  | tail _ hs ih => exact hs.peek_lasting hg hm hmut hrev ih

end

end Period

end Chronicle
