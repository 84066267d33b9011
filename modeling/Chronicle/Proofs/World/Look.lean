import Chronicle.Proofs.Formula.Locality
import Chronicle.Proofs.Period.Span
import Chronicle.Proofs.Search.Learned
import Chronicle.Proofs.World.Operate

/-!
# Looking and asking

A read answers what a peek would have answered, and then it is known.  What is known more is a value
of the model that the knowledge resolves to, so the knowledge still resolves to a model
(`exists_resolves_looked`), but not always to the same one.  It does if the look is harmless
(`resolves_looked`): then all answers stay, in whatever order one looks (`looking_changes_nothing`).

The two kinds of look that are not harmless can be seen on the scale below.  Under its lid it was
level, and the left weight turns out to be on, so the bell of the right one must have rung.  On its
way to the right weight the search has flipped the lamp, on which nothing depends; once the weight
has been seen there is no reason for that, and once the bell has been heard none for the weight.
Where formulas see more than their closures even a look at a derived variable can disturb
(`looks_can_disturb`).
-/

namespace Chronicle

namespace Period

variable {g : Graph} {p : Period} {v : Variable} {b : Bool}

theorem get?_currentState_observed (hg : g.WellFormed) (hv : v ∈ g.declared) (name : String) :
    ((p.observed v.name b).currentState g).get? name =
      ((p.currentState g).set v.name b).get? name := by
  rw [Table.get?_set, currentState, currentState, get?_collect hg.nodup, get?_collect hg.nodup]
  split
  next he =>
    rw [← he, Graph.find?_name hg.nodup hv, Option.bind_some, peek, record_observed_self,
      Record.peek_observed]
  next hne =>
    cases hu : g.find? name with
    | none => rfl
    | some u =>
      have hname := ((Graph.find?_eq_some_iff hg.nodup).mp hu).2
      rw [Option.bind_some, Option.bind_some, peek, record_observed, hname, if_neg hne]
      rfl

end Period

namespace World

variable {g : Graph} {w : World} {M : Valuation} {v : Variable} {b : Bool} {s : Symbol}

def looks (l : List Variable) : List Call := l.map fun v => .read v.symbol

theorem answer_read_eq_answer_peek (w : World) (s : Symbol) :
    w.answer (.read s) = w.answer (.peek s) := by
  rw [(answer_peek w s).1]
  cases h : w.peek s with
  | error e => exact (answer_read_error h).1
  | ok b => exact (answer_read h).1

section

variable (hg : w.graph.WellFormed) (hl : w.graph.IsLocal)

include hg hl

theorem peek_of_resolves (h : w.graph.Resolves w.knowledge M) (s : Symbol) :
    w.peek s = w.graph.valueIn M s := by
  obtain ⟨t, hsolve, hsame⟩ := h.exists_solve hg hl
  have hext : t.Extends w.knowledge :=
    fun name b hb => (hsame name).trans (h.model.extends_known _ _ hb)
  rw [peek_of_solve hg hsolve hext s]
  exact Graph.valueIn_congr hsame s

theorem answer_peek_of_resolves (h : w.graph.Resolves w.knowledge M) (hv : v ∈ w.graph.declared)
    (hb : M.get? v.name = some b) : w.answer (.peek v.symbol) = .ok (some b) := by
  rw [(answer_peek w v.symbol).1, peek_of_resolves hg hl h, Graph.valueIn_symbol hg hv hb]
  rfl

theorem get?_knowledge_looked (h : w.graph.Resolves w.knowledge M) (hv : v ∈ w.graph.declared)
    (hb : M.get? v.name = some b) (name : String) :
    (w.next (.read v.symbol)).knowledge.get? name = (w.knowledge.set v.name b).get? name := by
  have hpeek : w.peek v.symbol = .ok b := by
    rw [peek_of_resolves hg hl h, Graph.valueIn_symbol hg hv hb]
  rw [(answer_read hpeek).2]
  show ((w.setPeriod (w.current.observed v.name b)).current.currentState w.graph).get? name = _
  rw [current_observed]
  exact Period.get?_currentState_observed hg hv name

/-- **After a harmless look** the knowledge resolves to the same model, and what was harmless still
is. -/
theorem resolves_looked (h : w.graph.Resolves w.knowledge M) (hv : v ∈ w.graph.declared)
    (hharmless : w.graph.Harmless w.knowledge M v) :
    w.graph.Resolves (w.next (.read v.symbol)).knowledge M ∧
      ∀ u, w.graph.Harmless w.knowledge M u →
        w.graph.Harmless (w.next (.read v.symbol)).knowledge M u := by
  obtain ⟨b, hb⟩ := h.model.exists_get? hv
  have hknown := get?_knowledge_looked hg hl h hv hb
  have hk : w.graph.IsKnowledge w.knowledge := isKnowledge_knowledge hg
  refine ⟨(h.set hg hl hk hv hb hharmless).congr hg hl (hk.set hv b) fun name => (hknown name).symm,
    ?_⟩
  intro u hu
  exact (hu.set v.name b).congr fun name => (hknown name).symm

/-- **After any look** the knowledge resolves to some model. -/
theorem exists_resolves_looked (h : w.graph.Resolves w.knowledge M) (hv : v ∈ w.graph.declared) :
    (∃ M', w.graph.Resolves (w.next (.read v.symbol)).knowledge M') ∧
      (w.next (.read v.symbol)).knowledge.Extends w.knowledge := by
  obtain ⟨b, hb⟩ := h.model.exists_get? hv
  have hknown := get?_knowledge_looked hg hl h hv hb
  have hgraph := graph_eq_of_path (path_next hg (.read v.symbol))
  have hk : w.graph.IsKnowledge (w.next (.read v.symbol)).knowledge := by
    rw [← hgraph]
    exact isKnowledge_knowledge (hgraph ▸ hg)
  have hmodel := (h.model.set hb).congr fun name => (hknown name).symm
  obtain ⟨M', hM', _⟩ := Graph.exists_solve hg hl hk hmodel
  refine ⟨⟨M', Graph.resolves_of_solve hg hl hk hM'⟩, ?_⟩
  intro name c hc
  rw [hknown, Table.get?_set]
  split
  next he => rw [← hb, he, h.model.extends_known _ _ hc]
  next => exact hc

end

/-! ### Looks in a row -/

section

variable {l : List Variable} (hg : g.WellFormed) (hl : g.IsLocal)

include hg hl

theorem resolves_looks (hw : w.graph = g) (h : g.Resolves w.knowledge M)
    (hall : ∀ v ∈ l, v ∈ g.declared ∧ g.Harmless w.knowledge M v) :
    (w.after (looks l)).graph = g ∧ g.Resolves (w.after (looks l)).knowledge M := by
  induction l generalizing w with
  | nil => exact ⟨hw, h⟩
  | cons v rest ih =>
    subst hw
    obtain ⟨hv, hharmless⟩ := hall v List.mem_cons_self
    obtain ⟨hnext, hkept⟩ := resolves_looked hg hl h hv hharmless
    refine ih (graph_eq_of_path (path_next hg (.read v.symbol))) hnext ?_
    intro u hu
    obtain ⟨hdec, hu⟩ := hall u (List.mem_cons_of_mem v hu)
    exact ⟨hdec, hkept u hu⟩

theorem exists_resolves_looks (hw : w.graph = g) (h : g.Resolves w.knowledge M)
    (hall : ∀ v ∈ l, v ∈ g.declared) :
    (w.after (looks l)).graph = g ∧ (∃ M', g.Resolves (w.after (looks l)).knowledge M') ∧
      (w.after (looks l)).knowledge.Extends w.knowledge := by
  induction l generalizing w M with
  | nil => exact ⟨hw, ⟨M, h⟩, .refl _⟩
  | cons v rest ih =>
    subst hw
    obtain ⟨⟨M', hM'⟩, hextends⟩ := exists_resolves_looked hg hl h (hall v List.mem_cons_self)
    obtain ⟨hgraph, hlast, hrest⟩ := ih (graph_eq_of_path (path_next hg (.read v.symbol))) hM'
      fun u hu => hall u (List.mem_cons_of_mem v hu)
    exact ⟨hgraph, hlast, hrest.trans hextends⟩

end

/-- **Looking changes nothing** if it is harmless.  A read always answers what a peek answers just
before.  If the knowledge is solved by `M`, everything reads as in `M`, and after harmless looks, in
whatever order, every answer is as before.  After other looks the knowledge is still solved, and
what was seen stays so. -/
theorem looking_changes_nothing (hg : g.IsValid) (hw : Reachable g w) :
    (∀ s, w.answer (.read s) = w.answer (.peek s)) ∧
    (g.IsLocal → ∀ M, g.solve w.knowledge = .ok (some M) →
      (∀ v ∈ g.declared, ∃ b, M.get? v.name = some b ∧
        w.answer (.peek v.symbol) = .ok (some b)) ∧
      (∀ l : List Variable, (∀ v ∈ l, v ∈ g.declared ∧ g.Harmless w.knowledge M v) →
        ∀ s, (w.after (looks l)).answer (.peek s) = w.answer (.peek s) ∧
          (w.after (looks l)).answer (.read s) = w.answer (.peek s)) ∧
      ∀ l : List Variable, (∀ v ∈ l, v ∈ g.declared) →
        (∃ M', g.solve (w.after (looks l)).knowledge = .ok (some M')) ∧
        ∀ v ∈ g.declared, ((w.next (.read v.symbol)).after (looks l)).answer (.peek v.symbol) =
          w.answer (.peek v.symbol)) := by
  have hwell := hg.wellFormed
  obtain rfl := hw.graph_eq hwell
  refine ⟨answer_read_eq_answer_peek w, ?_⟩
  intro hl M hM
  have hk : w.graph.IsKnowledge w.knowledge := isKnowledge_knowledge hwell
  have hresolves := Graph.resolves_of_solve hwell hl hk hM
  refine ⟨?_, ?_, ?_⟩
  · intro v hv
    obtain ⟨b, hb⟩ := hresolves.model.exists_get? hv
    exact ⟨b, hb, answer_peek_of_resolves hwell hl hresolves hv hb⟩
  · intro l hall s
    obtain ⟨hgraph, hafter⟩ := resolves_looks hwell hl rfl hresolves hall
    have hsame : (w.after (looks l)).answer (.peek s) = w.answer (.peek s) := by
      rw [← hgraph] at hafter
      rw [(answer_peek _ s).1, (answer_peek w s).1, peek_of_resolves hwell hl hresolves,
        peek_of_resolves (hgraph ▸ hwell) (hgraph ▸ hl) hafter, hgraph]
    exact ⟨hsame, (answer_read_eq_answer_peek _ s).trans hsame⟩
  · intro l hall
    obtain ⟨hgraph, ⟨M', hM'⟩, _⟩ := exists_resolves_looks hwell hl rfl hresolves hall
    obtain ⟨t, ht, _⟩ := hM'.exists_solve hwell hl
    refine ⟨⟨t, ht⟩, ?_⟩
    intro v hv
    obtain ⟨b, hb⟩ := hresolves.model.exists_get? hv
    have hseen := get?_knowledge_looked hwell hl hresolves hv hb v.name
    obtain ⟨⟨M₁, hM₁⟩, _⟩ := exists_resolves_looked hwell hl hresolves hv
    obtain ⟨hgraph', ⟨M₂, hM₂⟩, hextends⟩ := exists_resolves_looks hwell hl
      (graph_eq_of_path (path_next hwell (.read v.symbol))) hM₁ hall
    rw [Table.get?_set_self] at hseen
    have hkept := hM₂.model.extends_known _ _ (hextends _ _ hseen)
    rw [answer_peek_of_resolves hwell hl hresolves hv hb]
    rw [← hgraph'] at hM₂
    exact answer_peek_of_resolves (hgraph' ▸ hwell) (hgraph' ▸ hl) hM₂ (hgraph'.symm ▸ hv) hkept

end World

/-! ### A scale under a lid -/

namespace Graph

namespace Scale

def lid : Variable := ⟨⟨"lid", 0⟩, .mutable false true, [], []⟩

def left : Variable := ⟨⟨"left", 1⟩, .mutable false true, [], []⟩

def lamp : Variable := ⟨⟨"lamp", 2⟩, .mutable false true, [], []⟩

def right : Variable := ⟨⟨"right", 3⟩, .mutable false true, [], []⟩

/-- Rings when the right weight is put on. -/
def bell : Variable :=
  ⟨⟨"bell", 4⟩, .triggered (Formula.value "right").rule false, [right.symbol], [right.symbol]⟩

/-- Under the lid it takes both weights or none. -/
def tilts : Formula := .all [.value "lid", .differ (.value "left") (.value "bell")]

def tilted : Variable :=
  ⟨⟨"tilted", 5⟩, .derived tilts.rule, [lid.symbol, left.symbol, bell.symbol],
    [lid.symbol, left.symbol, bell.symbol, right.symbol]⟩

def entries : List Entry :=
  [⟨"lid", .mutable "lid" false true, []⟩, ⟨"left", .mutable "left" false true, []⟩,
    ⟨"lamp", .mutable "lamp" false true, []⟩, ⟨"right", .mutable "right" false true, []⟩,
    ⟨"bell", .triggered "bell" [.label "right"] (Formula.value "right").rule false, []⟩,
    ⟨"tilted", .derived "tilted" [.label "lid", .label "left", .label "bell"] tilts.rule, []⟩]

/-- Under the lid the scale is seen level; the left weight is put on one tick before. -/
def weighing : List Call :=
  [.write lid.symbol true, .read tilted.symbol, .travel (-1), .write left.symbol true, .travel 0]

end Scale

open Scale in
def scale : Graph := ⟨[lid, left, lamp, right, bell, tilted], [], [bell, tilted]⟩

theorem scale_isValid : scale.IsValid :=
  isValid_of_made scale Scale.entries rfl (fun _ hv => hv) (fun _ hd => nomatch hd) rfl

theorem scale_isLocal : scale.IsLocal := by
  apply isLocal_of_reads
  intro v hv rule hr
  simp only [scale, List.mem_cons, List.not_mem_nil, or_false] at hv
  rcases hv with rfl | rfl | rfl | rfl | rfl | rfl
  · cases hr
  · cases hr
  · cases hr
  · cases hr
  · cases hr
    exact ⟨.value "right", rfl, by decide⟩
  · cases hr
    exact ⟨Scale.tilts, rfl, by decide⟩

end Graph

namespace World

def weighed : World := (start Graph.scale .standard none).after Graph.Scale.weighing

theorem weighed_reachable : Reachable Graph.scale weighed := ⟨.standard, none, _, rfl⟩

/-- The scale was level and the left weight is on, so the bell must have rung. -/
def balanced : Valuation :=
  .ofList [("lid", true), ("left", true), ("tilted", false), ("lamp", true), ("right", true),
    ("bell", true)]

theorem weighed_solved : Graph.scale.solve weighed.knowledge = .ok (some balanced) := by
  decide +kernel

/-- To look at the lamp and at the scale is harmless. -/
theorem looking_changes_nothing_weighed :
    (weighed.after (looks [Graph.Scale.lamp, Graph.Scale.tilted])).answer
      (.peek Graph.Scale.right.symbol) = weighed.answer (.peek Graph.Scale.right.symbol) := by
  obtain ⟨_, hlocal⟩ := looking_changes_nothing Graph.scale_isValid weighed_reachable
  obtain ⟨_, hlooks, _⟩ := hlocal Graph.scale_isLocal balanced weighed_solved
  refine (hlooks _ ?_ _).1
  have hflips : (Graph.scale.flipsOf weighed.knowledge balanced).tail.map Variable.name =
      ["right"] := by decide +kernel
  have hout : ∀ v : Variable, v.name ≠ "right" →
      v ∉ (Graph.scale.flipsOf weighed.knowledge balanced).tail := by
    intro v hne hv
    have hname := List.mem_map_of_mem (f := Variable.name) hv
    rw [hflips] at hname
    exact hne (List.mem_singleton.mp hname)
  intro v hv
  simp only [List.mem_cons, List.not_mem_nil, or_false] at hv
  rcases hv with rfl | rfl
  · exact ⟨by simp [Graph.scale], hout _ (by decide), fun h => nomatch h⟩
  · exact ⟨by simp [Graph.scale], hout _ (by decide), fun h => nomatch h⟩

end World

/-! ### A formula that sees more than it says -/

namespace Graph

namespace Porch

def lamp : Variable := ⟨⟨"lamp", 0⟩, .mutable false true, [], []⟩

/-- Depends on nothing, but sees whether the dark has a value. -/
def noticed : Variable := ⟨⟨"noticed", 1⟩, .derived (Formula.known "dark").rule, [], []⟩

def dark : Variable :=
  ⟨⟨"dark", 2⟩, .derived (Formula.not (.value "lamp")).rule, [lamp.symbol], [lamp.symbol]⟩

def entries : List Entry :=
  [⟨"lamp", .mutable "lamp" false true, []⟩,
    ⟨"noticed", .derived "noticed" [] (Formula.known "dark").rule, []⟩,
    ⟨"dark", .derived "dark" [.label "lamp"] (Formula.not (.value "lamp")).rule, []⟩]

end Porch

open Porch in
def porch : Graph := ⟨[lamp, noticed, dark], [], [noticed, dark]⟩

theorem porch_isValid : porch.IsValid :=
  isValid_of_made porch Porch.entries rfl (fun _ hv => hv) (fun _ hd => nomatch hd) rfl

end Graph

namespace World

/-- In every reachable world with knowledge that can be solved, a look at a variable of the kind
leaves every answer. -/
def NeverDisturbs (kind : Graph → Variable → Prop) : Prop :=
  ∀ (g : Graph) (w : World) (M : Valuation) (u v : Variable), g.IsValid → Reachable g w →
    g.solve w.knowledge = .ok (some M) → u ∈ g.declared → v ∈ g.declared → kind g v →
    (w.next (.read v.symbol)).answer (.peek u.symbol) = w.answer (.peek u.symbol)

/-- A look can change what is not looked at: a look at a mutable, a look at a latch, and, where
formulas see more than their closures, even a look at a derived variable. -/
theorem looks_can_disturb :
    ¬ NeverDisturbs (fun g v => g.IsLocal ∧ v.isMutable = true) ∧
      ¬ NeverDisturbs (fun g v => g.IsLocal ∧ v.isTriggered = true) ∧
      ¬ NeverDisturbs fun _ v => v.isDerived = true := by
  refine ⟨?_, ?_, ?_⟩
  · intro h
    have hsame := h Graph.scale weighed balanced Graph.Scale.lamp Graph.Scale.right
      Graph.scale_isValid weighed_reachable weighed_solved (by simp [Graph.scale])
      (by simp [Graph.scale]) ⟨Graph.scale_isLocal, rfl⟩
    revert hsame
    decide +kernel
  · intro h
    have hsame := h Graph.scale weighed balanced Graph.Scale.right Graph.Scale.bell
      Graph.scale_isValid weighed_reachable weighed_solved (by simp [Graph.scale])
      (by simp [Graph.scale]) ⟨Graph.scale_isLocal, rfl⟩
    revert hsame
    decide +kernel
  · intro h
    have hsame := h Graph.porch (start Graph.porch .standard none)
      (.ofList [("lamp", false), ("noticed", false), ("dark", true)]) Graph.Porch.noticed
      Graph.Porch.dark Graph.porch_isValid ⟨.standard, none, [], rfl⟩ (by decide +kernel)
      (by simp [Graph.porch]) (by simp [Graph.porch]) rfl
    revert hsame
    decide +kernel

end World

end Chronicle
