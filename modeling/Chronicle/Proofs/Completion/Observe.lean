import Chronicle.Knowledge
import Chronicle.Proofs.Completion.Evaluate
import Chronicle.Proofs.Formula.Locality
import Chronicle.Proofs.Graph.Closed

/-!
# What a completion rests on

Two things may happen to what is known between two completions.

Some of what the first one says may be observed.  Then the second one says the same
(`observing_keeps_completion`): the observed values are right, whether they were defaults, computed
or recorded, and what is right about a completion is completed by it (`IsCompletion.of_extends`).

Or something else may be known.  Then a variable has the same value in both unless something else is
known of the variable itself or of its closure (`closure_settles_completion`).  This is an induction
over the graph: a mutable is known or at its default, and the rule of any other variable sees its
closure only, where both agree already (`IsCompletion.get?_eq_of_closure`).
-/

namespace Chronicle

namespace Valuation

/-- What a state says of some variables, to be observed. -/
def readings (s : Valuation) (V : List Variable) : List (Symbol × Bool) :=
  V.filterMap fun v => (s.get? v.name).map (v.symbol, ·)

theorem mem_readings {s : Valuation} {V : List Variable} {e : Symbol × Bool} :
    e ∈ s.readings V ↔ ∃ v ∈ V, v.symbol = e.1 ∧ s.get? v.name = some e.2 := by
  obtain ⟨symbol, b⟩ := e
  rw [readings, List.mem_filterMap]
  simp only [Option.map_eq_some_iff, Prod.mk.injEq]
  refine ⟨?_, ?_⟩
  · rintro ⟨v, hv, _, hb, rfl, rfl⟩
    exact ⟨v, hv, rfl, hb⟩
  · rintro ⟨v, hv, rfl, hb⟩
    exact ⟨v, hv, b, hb, rfl, rfl⟩

/-- **To write what a state says of some variables** is to answer like the state there. -/
theorem get?_update_readings {s : Valuation} {V : List Variable}
    (h : ∀ v ∈ V, s.contains v.name = true) (p : Valuation) (name : String) :
    (p.update ((s.readings V).map fun e => (e.1.name, e.2))).get? name =
      if name ∈ V.map Variable.name then s.get? name else p.get? name := by
  have hright : ∀ e ∈ (s.readings V).map fun e => (e.1.name, e.2), s.get? e.1 = some e.2 := by
    intro e he
    obtain ⟨r, hr, rfl⟩ := List.mem_map.mp he
    obtain ⟨v, _, hsymbol, hb⟩ := mem_readings.mp hr
    rw [← hsymbol]
    exact hb
  rw [Table.get?_update_of_forall hright]
  refine if_congr ?_ rfl rfl
  simp only [List.map_map, List.mem_map, mem_readings, Function.comp_apply]
  refine ⟨?_, ?_⟩
  · rintro ⟨e, ⟨v, hv, hsymbol, _⟩, rfl⟩
    exact ⟨v, hv, congrArg Symbol.name hsymbol⟩
  · rintro ⟨v, hv, rfl⟩
    obtain ⟨b, hb⟩ := Table.contains_iff.mp (h v hv)
    exact ⟨(v.symbol, b), ⟨v, hv, rfl, hb⟩, rfl⟩

end Valuation

namespace Graph

variable {g : Graph} {mode : Mode} {p q s t : Valuation} {V : List Variable}

/-! ### Observing -/

theorem assign_of_declared (hg : g.WellFormed) {values : List (Symbol × Bool)}
    (h : ∀ e ∈ values, ∃ v ∈ g.declared, v.symbol = e.1) :
    g.assign p values = .ok (p.update (values.map fun e => (e.1.name, e.2))) := by
  induction values generalizing p with
  | nil => rfl
  | cons e rest ih =>
    obtain ⟨symbol, b⟩ := e
    obtain ⟨v, hv, rfl⟩ := h _ List.mem_cons_self
    have hrest : g.assign (p.set v.symbol.name b) rest =
        .ok ((p.set v.symbol.name b).update (rest.map fun e => (e.1.name, e.2))) :=
      ih fun e he => h e (List.mem_cons_of_mem _ he)
    rw [assign, hg.require_symbol hv, hrest]
    cases p.contains v.symbol.name <;> rfl

/-- **To observe what a completion says changes nothing.**  Whatever is observed of it, defaults,
computed values and recorded ones alike, what is known then completes in the same mode, and to the
same state. -/
theorem observing_keeps_completion (hg : g.IsValid) (hl : g.IsLocal) (hp : g.IsKnowledge p)
    (hs : g.complete? mode p = .ok (some s)) (hV : ∀ v ∈ V, v ∈ g.declared) :
    ∃ q, g.assign p (s.readings V) = .ok q ∧
      (∀ name, q.get? name =
        if name ∈ V.map Variable.name then s.get? name else p.get? name) ∧
      ∃ t, g.complete? mode q = .ok (some t) ∧ ∀ name, t.get? name = s.get? name := by
  have hw := hg.wellFormed
  have hcompletes := isCompletion_of_complete? hw hl hp hs
  have hdeclared : ∀ e ∈ s.readings V, ∃ v ∈ g.declared, v.symbol = e.1 := by
    intro e he
    obtain ⟨v, hv, hsymbol, _⟩ := Valuation.mem_readings.mp he
    exact ⟨v, hV v hv, hsymbol⟩
  have hknown := Valuation.get?_update_readings (s := s) (V := V)
    (fun v hv => Table.contains_iff.mpr (hcompletes.exists_get? (hV v hv))) p
  refine ⟨_, assign_of_declared hw hdeclared, hknown, ?_⟩
  refine complete?_of_isCompletion hw hl (hcompletes.of_extends ?_ ?_)
  · intro name b hb
    rw [hknown, hcompletes.extends_known name b hb, hb, ite_self]
  · intro name b hb
    rw [hknown] at hb
    split at hb
    · exact hb
    · exact hcompletes.extends_known name b hb

/-! ### A kiln -/

namespace Kiln

/-- Ranges over three numbers with two bits and starts at the first of them. -/
def heat : Dial := ⟨"heat", 0, 2, 0, Nat.zero_le 2⟩

def low : Variable := ⟨⟨"heat_bit0", 0⟩, .mutable false true, [], []⟩

def high : Variable := ⟨⟨"heat_bit1", 1⟩, .mutable false true, [], []⟩

def door : Variable := ⟨⟨"door", 2⟩, .mutable true true, [], []⟩

def isHot : Formula := .all [.compare heat .ge 2, .not (.value "door")]

def isWarm : Formula := .compare heat .ge 1

/-- Cool again, after it has been hot. -/
def isReady : Formula := .all [.value "baked", .not (.value "hot")]

def hot : Variable :=
  ⟨⟨"hot", 3⟩, .derived isHot.rule, [low.symbol, high.symbol, door.symbol],
    [low.symbol, high.symbol, door.symbol]⟩

def warm : Variable :=
  ⟨⟨"warm", 4⟩, .derived isWarm.rule, [low.symbol, high.symbol], [low.symbol, high.symbol]⟩

/-- Fires when it is hot. -/
def baked : Variable :=
  ⟨⟨"baked", 5⟩, .triggered (Formula.value "hot").rule true, [hot.symbol],
    [hot.symbol, low.symbol, high.symbol, door.symbol]⟩

def ready : Variable :=
  ⟨⟨"ready", 6⟩, .derived isReady.rule, [baked.symbol, hot.symbol],
    [baked.symbol, hot.symbol, low.symbol, high.symbol, door.symbol]⟩

def entries : List Entry :=
  [⟨"heat", .dial "heat" 0 2, []⟩, ⟨"door", .mutable "door" true true, []⟩,
    ⟨"hot", .derived "hot" [.label "heat", .label "door"] isHot.rule, []⟩,
    ⟨"warm", .derived "warm" [.label "heat"] isWarm.rule, []⟩,
    ⟨"baked", .triggered "baked" [.label "hot"] (Formula.value "hot").rule true, []⟩,
    ⟨"ready", .derived "ready" [.label "baked", .label "hot"] isReady.rule, []⟩]

end Kiln

open Kiln in
def kiln : Graph :=
  ⟨[low, high, door, hot, warm, baked, ready], [heat], [hot, warm, baked, ready]⟩

theorem kiln_isValid : kiln.IsValid := by
  refine isValid_of_made kiln Kiln.entries rfl (fun _ hv => hv) ?_ rfl
  intro d hd
  exact ⟨"heat", congrArg some (List.mem_singleton.mp hd).symm⟩

theorem kiln_isLocal : kiln.IsLocal := by
  apply isLocal_of_reads
  intro v hv rule hr
  simp only [kiln, List.mem_cons, List.not_mem_nil, or_false] at hv
  rcases hv with rfl | rfl | rfl | rfl | rfl | rfl | rfl
  · cases hr
  · cases hr
  · cases hr
  · cases hr
    exact ⟨Kiln.isHot, rfl, by decide⟩
  · cases hr
    exact ⟨Kiln.isWarm, rfl, by decide⟩
  · cases hr
    exact ⟨.value "hot", rfl, by decide⟩
  · cases hr
    exact ⟨Kiln.isReady, rfl, by decide⟩

/-- It has been baked, and is found open and ready. -/
theorem observing_keeps_completion_kiln :
    ∃ s q t, kiln.complete? .latched (.ofList [("baked", true)]) = .ok (some s) ∧
      kiln.assign (.ofList [("baked", true)])
        (s.readings [Kiln.door, Kiln.baked, Kiln.ready]) = .ok q ∧
      q.get? "ready" = some true ∧ kiln.complete? .latched q = .ok (some t) ∧
      ∀ name, t.get? name = s.get? name := by
  have hs : kiln.complete? .latched (.ofList [("baked", true)]) = .ok (some (.ofList
      [("baked", true), ("heat_bit0", false), ("heat_bit1", false), ("door", true),
        ("hot", false), ("warm", false), ("ready", true)])) := by decide +kernel
  obtain ⟨q, hq, hknown, t, ht, hsame⟩ := observing_keeps_completion
    (V := [Kiln.door, Kiln.baked, Kiln.ready]) kiln_isValid kiln_isLocal (by decide) hs (by
      intro v hv
      simp only [List.mem_cons, List.not_mem_nil, or_false] at hv
      rcases hv with rfl | rfl | rfl <;> simp [kiln])
  refine ⟨_, q, t, hs, hq, ?_, ht, hsame⟩
  rw [hknown]
  decide

/-! ### Reading -/

/-- **Known or unknown alike in a closure, alike in the completion.** -/
theorem IsCompletion.get?_eq_of_closure (hg : g.IsValid) (hl : g.IsLocal)
    (hs : g.IsCompletion mode p s) (ht : g.IsCompletion mode q t) :
    ∀ v ∈ g.declared, p.get? v.name = q.get? v.name →
      (∀ name, v.dependsOn name = true → p.get? name = q.get? name) →
      s.get? v.name = t.get? v.name := by
  refine hg.wellFormed.induction ?_ ?_
  · intro v hv hm hself _
    rw [hs.get?_mutable hv hm, ht.get?_mutable hv hm, hself]
  · intro v hv hm ih hself hclosure
    obtain ⟨rule, b, hr, hb, hmatch⟩ := hs.obeys hv hm
    obtain ⟨rule', b', hr', hb', hmatch'⟩ := ht.obeys hv hm
    obtain rfl : rule = rule' := Option.some.inj (hr.symm.trans hr')
    -- The closure of what is in the closure is known alike as well.
    have hsame : rule s = rule t := by
      refine rule_eq_of_closure hg.wellFormed hl hv hm hr ?_
      intro w hw hd
      refine ih w hw hd (hclosure w.name hd) ?_
      intro name hn
      exact hclosure name (hg.closed.trans v hv w hw hd name hn)
    cases hp : p.get? v.name with
    | some r =>
      rw [hs.extends_known _ _ hp, ht.extends_known _ _ (hself.symm.trans hp)]
    | none =>
      rw [hp] at hself hmatch
      rw [← hself] at hmatch'
      rw [hmatch, hmatch', Except.ok.inj (hb.symm.trans (hsame.trans hb'))]

/-- **A completed value rests on the closure.**  Two completions in one mode agree on a variable if
the same is known, or both times nothing, of it and of all that is in its closure.  So where only
one variable is known otherwise, as by a change to what is pinned of a mutable, nothing differs but
the variable and its dependents. -/
theorem closure_settles_completion (hg : g.IsValid) (hl : g.IsLocal) (hp : g.IsKnowledge p)
    (hq : g.IsKnowledge q) (hs : g.complete? mode p = .ok (some s))
    (ht : g.complete? mode q = .ok (some t)) :
    (∀ v ∈ g.declared, p.get? v.name = q.get? v.name →
      (∀ w ∈ v.closure, p.get? w.name = q.get? w.name) → s.get? v.name = t.get? v.name) ∧
    ∀ m ∈ g.declared, (∀ name, name ≠ m.name → p.get? name = q.get? name) →
      ∀ v ∈ g.declared, s.get? v.name ≠ t.get? v.name → v = m ∨ v ∈ g.dependentsOf m.name := by
  have hw := hg.wellFormed
  have hagree := (isCompletion_of_complete? hw hl hp hs).get?_eq_of_closure hg hl
    (isCompletion_of_complete? hw hl hq ht)
  refine ⟨?_, ?_⟩
  · intro v hv hself hclosure
    refine hagree v hv hself ?_
    intro name hn
    obtain ⟨w, hw, rfl⟩ := List.mem_map.mp (Variable.dependsOn_iff.mp hn)
    exact hclosure w hw
  · intro m hm hother v hv hdiffers
    by_contra hout
    rw [not_or, hg.mem_dependentsOf_iff] at hout
    refine hdiffers (hagree v hv (hother v.name fun he => hout.1 (hw.eq_of_name hv hm he)) ?_)
    intro name hn
    refine hother name ?_
    rintro rfl
    exact hout.2 ⟨hv, hn⟩

/-- Behind a closed door the kiln gets hot.  It is as warm as before, and to be baked depends on the
door. -/
theorem closure_settles_completion_kiln :
    ∃ s t, kiln.complete? .exact (.ofList [("heat_bit1", true)]) = .ok (some s) ∧
      kiln.complete? .exact (.ofList [("heat_bit1", true), ("door", false)]) = .ok (some t) ∧
      s.get? "warm" = t.get? "warm" ∧ s.get? "baked" ≠ t.get? "baked" ∧
      Kiln.baked ∈ kiln.dependentsOf "door" := by
  have hs : kiln.complete? .exact (.ofList [("heat_bit1", true)]) = .ok (some (.ofList
      [("heat_bit1", true), ("heat_bit0", false), ("door", true), ("hot", false),
        ("warm", true), ("baked", false), ("ready", false)])) := by decide +kernel
  have ht : kiln.complete? .exact (.ofList [("heat_bit1", true), ("door", false)]) =
      .ok (some (.ofList [("heat_bit1", true), ("door", false), ("heat_bit0", false),
        ("hot", true), ("warm", true), ("baked", true), ("ready", false)])) := by decide +kernel
  obtain ⟨hagree, hchange⟩ := closure_settles_completion kiln_isValid kiln_isLocal
    (by decide) (by decide) hs ht
  refine ⟨_, _, hs, ht, ?_, by decide, ?_⟩
  · exact hagree Kiln.warm (by simp [kiln]) (by decide) (by decide)
  · have hother : ∀ name, name ≠ "door" →
        Table.get? (.ofList [("heat_bit1", true)]) name =
          Table.get? (.ofList [("heat_bit1", true), ("door", false)]) name := by
      intro name hn
      exact (Table.get?_set_of_ne (.ofList [("heat_bit1", true)]) hn.symm false).symm
    rcases hchange Kiln.door (by simp [kiln]) hother Kiln.baked (by simp [kiln]) (by decide) with
      h | h
    · exact absurd (congrArg Variable.name h) (by decide)
    · exact h

end Graph

end Chronicle
