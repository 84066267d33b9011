import Chronicle.Period.Access
import Chronicle.Proofs.Outcome
import Chronicle.Proofs.Valuation

/-!
# Overriding start values

`overridden p l` is the period with the start values of a list fixed.  To override them one by one
comes to this whenever each of them is open when its turn comes (`correctAll_run`), and that is so
for every table of open names: to fix the start of one name leaves the others open.

What is known at the start grows by exactly the overrides (`get?_startState_overridden`), and so
does what is known now (`get?_currentState_overridden`).
-/

namespace Chronicle.Period

variable {g : Graph} {p : Period} {name other : String} {b : Bool} {l : List (String × Bool)}
  {o : Valuation}

def overriddenAt (p : Period) (name : String) (b : Bool) : Period :=
  p.setRecord name { p.record name with startOverride := some b }

/-- The period with the start values of a list fixed, in order. -/
def overridden (p : Period) (l : List (String × Bool)) : Period :=
  l.foldl (fun p e => p.overriddenAt e.1 e.2) p

theorem overrideStart_of_canOverride (h : p.canOverride name = true) (b : Bool) :
    p.overrideStart name b = .ok (p.overriddenAt name b) := if_pos h

theorem record_overriddenAt (p : Period) (name other : String) (b : Bool) :
    (p.overriddenAt name b).record other =
      if name = other then { p.record name with startOverride := some b } else p.record other :=
  record_setRecord p name other _

theorem canOverride_overriddenAt_of_ne (h : name ≠ other) (b : Bool) :
    (p.overriddenAt name b).canOverride other = p.canOverride other := by
  rw [canOverride, record_overriddenAt, if_neg h]
  rfl

theorem time_overridden (p : Period) (l : List (String × Bool)) :
    (p.overridden l).time = p.time := by
  induction l generalizing p with
  | nil => rfl
  | cons e rest ih => exact ih (p.overriddenAt e.1 e.2)

theorem antecedents_overridden (p : Period) (l : List (String × Bool)) :
    (p.overridden l).antecedents = p.antecedents := by
  induction l generalizing p with
  | nil => rfl
  | cons e rest ih => exact ih (p.overriddenAt e.1 e.2)

/-- **Open names under distinct names can all be overridden**, one after another. -/
theorem correctAll_run (corrections : List String) (hn : (l.map Prod.fst).Nodup)
    (ho : ∀ e ∈ l, p.canOverride e.1 = true) :
    (correctAll corrections l).run p = (.ok (), p.overridden l) := by
  induction l generalizing p with
  | nil => rfl
  | cons e rest ih =>
    obtain ⟨name, b⟩ := e
    rw [List.map_cons, List.nodup_cons] at hn
    have hfirst : p.overrideStart name b = .ok (p.overriddenAt name b) :=
      overrideStart_of_canOverride (ho _ List.mem_cons_self) b
    have hstep : (correct corrections name b).run p = (.ok (), p.overriddenAt name b) := by
      unfold correct
      rw [run_get_bind, hfirst]
      rfl
    have hrest := ih (p := p.overriddenAt name b) hn.2 (by
      intro e he
      rw [canOverride_overriddenAt_of_ne]
      · exact ho e (List.mem_cons_of_mem _ he)
      · rintro rfl
        exact hn.1 (List.mem_map.mpr ⟨e, he, rfl⟩))
    show (correct corrections name b >>= fun _ => correctAll corrections rest).run p = _
    rw [run_bind_ok hstep]
    exact hrest

theorem record_overridden (p : Period) (o : Valuation) (name : String) :
    (p.overridden o.entries).record name =
      match o.get? name with
      | some b => { p.record name with startOverride := some b }
      | none => p.record name := by
  suffices h : ∀ (l : List (String × Bool)) (p : Period), (l.map Prod.fst).Nodup →
      (p.overridden l).record name = match Table.lookup name l with
        | some b => { p.record name with startOverride := some b }
        | none => p.record name from h o.entries p o.nodup
  intro l
  induction l with
  | nil => intro p _; rfl
  | cons e rest ih =>
    intro p hn
    obtain ⟨n, b⟩ := e
    rw [List.map_cons, List.nodup_cons] at hn
    have hrest := ih (p.overriddenAt n b) hn.2
    rw [record_overriddenAt] at hrest
    show ((p.overriddenAt n b).overridden rest).record name = _
    rw [hrest]
    by_cases he : n = name
    · subst he
      have hnone : Table.lookup n rest = none := Table.lookup_eq_none_iff.mpr hn.1
      simp [Table.lookup, hnone]
    · simp [Table.lookup, he]

/-- The names of a valuation can all be overridden. -/
def Accepts (p : Period) (o : Valuation) : Prop :=
  ∀ name, o.contains name = true → p.canOverride name = true

theorem Accepts.correctAll_run (h : p.Accepts o) (corrections : List String) :
    (correctAll corrections o.entries).run p = (.ok (), p.overridden o.entries) := by
  apply Period.correctAll_run corrections o.nodup
  intro e he
  exact h e.1 (Table.contains_iff.mpr ⟨e.2, Table.mem_entries_iff.mp he⟩)

theorem canOverride_iff :
    p.canOverride name = true ↔
      (p.record name).knownStart = none ∧ (p.record name).currentValue = none := by
  rw [canOverride, Record.isOpen, Bool.and_eq_true, Option.isNone_iff_eq_none,
    Option.isNone_iff_eq_none]

theorem peek_of_canOverride (h : p.canOverride name = true) : p.peek name = none := by
  obtain ⟨hs, hc⟩ := canOverride_iff.mp h
  rw [peek, Record.peek, hs, hc, ite_self]
  rfl

/-- **What is known at the start** afterwards: the overrides, and what was known before. -/
theorem get?_startState_overridden (hn : g.names.Nodup) {v : Variable} (hv : v ∈ g.declared) :
    ((p.overridden o.entries).startState g).get? v.name =
      (o.get? v.name).or ((p.startState g).get? v.name) := by
  rw [startState, startState, get?_collect_name hn _ hv, get?_collect_name hn _ hv,
    record_overridden]
  cases ho : o.get? v.name with
  | none => rfl
  | some b => rfl

theorem get?_currentState_overridden (hn : g.names.Nodup) (h : p.Accepts o) {v : Variable}
    (hv : v ∈ g.declared) :
    ((p.overridden o.entries).currentState g).get? v.name =
      ((p.currentState g).get? v.name).or
        (if (p.record v.name).modifiedSinceStart then none else o.get? v.name) := by
  rw [currentState, currentState, get?_collect_name hn _ hv, get?_collect_name hn _ hv, peek, peek,
    record_overridden]
  cases ho : o.get? v.name with
  | none => simp
  | some b =>
    obtain ⟨hs, hc⟩ := canOverride_iff.mp (h v.name (Table.contains_iff.mpr ⟨b, ho⟩))
    simp only [Record.peek, hs, hc, Option.none_or]
    cases (p.record v.name).modifiedSinceStart <;> simp [Record.knownStart]

theorem peek_overridden (h : p.Accepts o) (hb : p.peek name = some b) :
    (p.overridden o.entries).peek name = some b := by
  rw [peek, record_overridden]
  cases ho : o.get? name with
  | none => exact hb
  | some c =>
    rw [peek_of_canOverride (h name (Table.contains_iff.mpr ⟨c, ho⟩))] at hb
    cases hb

end Chronicle.Period
