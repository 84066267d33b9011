import Chronicle.Proofs.Search.Satisfiable
import Chronicle.World.Arrival

/-!
# Replayed firings

To replay the firings of a period in a history is to explain them one after another.  A firing is
explained by the first set of flips of what its context leaves open that lets the latch fire and
leaves the history consistent, and the flips are written over the history (`Explained`).  In the
end every context has to have a completion by defaults (`FiresByDefault`).

* `replay_eq_some_iff`: this is what the replay computes, and it never fails (`exists_replay`), as
  long as the triggers are declared.
* `Explains.get?_cases`: a history can lose a value in a replay, but only that of a mutable which
  the context of some firing does not show.
* `explains_self`: where every context has a completion by defaults as it stands, the replay changes
  nothing.
-/

namespace Chronicle.Arrival

open Search (flipAll flipSets)

variable {g : Graph} {c r r' context : Valuation} {a : Antecedent} {l : List Antecedent}
  {name : String} {b : Bool} {F : List Variable}

/-- The history with the flips of a set written over it. -/
def patch (r context : Valuation) (F : List Variable) : Valuation :=
  r.update ((flipAll context F).flipsFrom context).entries

/-- With these flips of the context the latch fires, and the history stays consistent. -/
def Works (g : Graph) (r context : Valuation) (F : List Variable) : Prop :=
  g.Consistent .exact (flipAll context F) ∧ g.Consistent .latched (patch r context F)

/-- `r'` is `r` with the first flips that work written over it. -/
def Explained (g : Graph) (a : Antecedent) (r r' : Valuation) : Prop :=
  ∃ context before F after, firingContext g r a = .ok context ∧
    flipSets (g.unknownMutables context) = before ++ F :: after ∧ Works g r context F ∧
    (∀ G ∈ before, ¬ Works g r context G) ∧ r' = patch r context F

/-- The firings are explained one after another. -/
inductive Explains (g : Graph) : List Antecedent → Valuation → Valuation → Prop
  | nil (c : Valuation) : Explains g [] c c
  | cons {a : Antecedent} {l : List Antecedent} {c c' r : Valuation} (first : Explained g a c c')
      (rest : Explains g l c' r) : Explains g (a :: l) c r

/-- The context of the firing has a completion by defaults. -/
def FiresByDefault (g : Graph) (r : Valuation) (a : Antecedent) : Prop :=
  ∃ context, firingContext g r a = .ok context ∧ g.Consistent .exact context

def Declared (g : Graph) (a : Antecedent) : Prop := ∃ t, g.get a.trigger = .ok t

theorem firingContext_eq_ok (h : firingContext g r a = .ok context) :
    ∃ t, g.get a.trigger = .ok t ∧
      context = ((r.restrictedTo ((g.relevantTo t).map Variable.name)).update
        a.recorded.entries).set t.name true := by
  obtain ⟨t, ht, h⟩ := bind_eq_ok.mp h
  cases h
  exact ⟨t, ht, rfl⟩

theorem exists_firingContext (h : Declared g a) (r : Valuation) :
    ∃ context, firingContext g r a = .ok context := by
  obtain ⟨t, ht⟩ := h
  unfold firingContext
  rw [ht]
  exact ⟨_, rfl⟩

/-! ### What a replay computes -/

/-- What is tried on each set of flips when a firing is explained. -/
def attempt (g : Graph) (r context firing : Valuation) : Except Error (Option Valuation) := do
  if ← g.isConsistent .exact firing then
    let patched := r.update (firing.flipsFrom context).entries
    return if ← g.isConsistent .latched patched then some patched else none
  else return none

theorem explain_of_context (h : firingContext g r a = .ok context) :
    explain g r a = Search.first (attempt g r context) (g.unknownMutables context) context := by
  unfold explain
  rw [h, ok_bind]
  rfl

theorem attempt_of_works (h : Works g r context F) :
    attempt g r context (flipAll context F) = .ok (some (patch r context F)) := by
  have hpatched : g.isConsistent .latched (patch r context F) = .ok true :=
    Graph.isConsistent_eq_true_iff.mpr h.2
  rw [attempt, Graph.isConsistent_eq_true_iff.mpr h.1, ok_bind, if_pos rfl]
  show (g.isConsistent .latched (patch r context F) >>= fun b =>
    pure (if b then some (patch r context F) else none)) = _
  rw [hpatched]
  rfl

theorem works_of_attempt (h : attempt g r context (flipAll context F) = .ok (some r')) :
    Works g r context F ∧ r' = patch r context F := by
  obtain ⟨b, hb, h⟩ := bind_eq_ok.mp h
  cases b with
  | false => cases h
  | true =>
    obtain ⟨b', hb', h⟩ := bind_eq_ok.mp h
    cases b' with
    | false => cases h
    | true =>
      cases h
      exact ⟨⟨Graph.isConsistent_eq_true_iff.mp hb, Graph.isConsistent_eq_true_iff.mp hb'⟩, rfl⟩

theorem explained_of_explain (h : explain g r a = .ok (some r')) : Explained g a r r' := by
  obtain ⟨context, hcontext, _⟩ := bind_eq_ok.mp h
  rw [explain_of_context hcontext] at h
  obtain ⟨before, F, after, hsets, hF, hbefore⟩ := Search.first_eq_some_iff.mp h
  obtain ⟨hworks, rfl⟩ := works_of_attempt hF
  refine ⟨context, before, F, after, hcontext, hsets, hworks, ?_, rfl⟩
  intro G hG hw
  have hnone := hbefore G hG
  rw [attempt_of_works hw] at hnone
  cases hnone

theorem explains_of_explainAll (h : explainAll g l c = .ok (some r)) : Explains g l c r := by
  induction l generalizing c with
  | nil =>
    cases h
    exact .nil _
  | cons a rest ih =>
    obtain ⟨o, ho, h⟩ := bind_eq_ok.mp h
    cases o with
    | none => cases h
    | some c' => exact .cons (explained_of_explain ho) (ih h)

theorem fires_eq_true_iff : fires g r a = .ok true ↔ FiresByDefault g r a := by
  rw [fires, bind_eq_ok]
  refine exists_congr fun context => and_congr_right fun _ => ?_
  exact Graph.isConsistent_eq_true_iff

theorem allFire_eq_true_iff :
    allFire g r l = .ok true ↔ ∀ a ∈ l, FiresByDefault g r a := by
  induction l with
  | nil => simp [allFire]
  | cons a rest ih =>
    rw [List.forall_mem_cons, ← ih, ← fires_eq_true_iff, allFire, bind_eq_ok]
    refine ⟨?_, ?_⟩
    · rintro ⟨b, hb, h⟩
      cases b with
      | true => exact ⟨hb, h⟩
      | false => cases h
    · rintro ⟨hb, h⟩
      exact ⟨true, hb, h⟩

theorem explains_of_replay (h : replay g l c = .ok (some r)) :
    Explains g l c r ∧ ∀ a ∈ l, FiresByDefault g r a := by
  obtain ⟨o, ho, h⟩ := bind_eq_ok.mp h
  cases o with
  | none => cases h
  | some s =>
    obtain ⟨b, hb, h⟩ := bind_eq_ok.mp h
    cases b with
    | false => cases h
    | true =>
      cases h
      exact ⟨explains_of_explainAll ho, allFire_eq_true_iff.mp hb⟩

/-! ### What a replay changes -/

/-- The context of a firing shows a name: the latch itself, what its antecedent recorded, and what
it depends on. -/
def Shows (g : Graph) (a : Antecedent) (name : String) : Prop :=
  ∃ t, g.get a.trigger = .ok t ∧
    (t.name = name ∨ a.recorded.contains name = true ∨ name ∈ (g.relevantTo t).map Variable.name)

theorem contains_firingContext (h : firingContext g r a = .ok context) (hs : Shows g a name)
    (hr : r.contains name = true) : context.contains name = true := by
  obtain ⟨t, ht, rfl⟩ := firingContext_eq_ok h
  obtain ⟨t', ht', hs⟩ := hs
  obtain rfl : t = t' := Except.ok.inj (ht.symm.trans ht')
  obtain ⟨b, hb⟩ := Table.contains_iff.mp hr
  rw [Table.contains_set, Bool.or_eq_true, decide_eq_true_eq]
  by_cases hn : t.name = name
  · exact Or.inl hn
  · right
    rw [Table.contains_iff, Table.get?_update_entries, Valuation.get?_restrictedTo]
    rcases hs with hs | hs | hs
    · exact absurd hs hn
    · obtain ⟨c, hc⟩ := Table.contains_iff.mp hs
      exact ⟨c, by rw [hc, Option.some_or]⟩
    · rw [if_pos hs, hb]
      cases a.recorded.get? name <;> simp

section

variable (hg : g.WellFormed)

include hg

/-- **An explanation changes a history** only in mutables that the context of the firing leaves
open, and it gives them the opposite of their defaults. -/
theorem Explained.get?_cases (h : Explained g a r r') (name : String) :
    r'.get? name = r.get? name ∨
      ∃ v ∈ g.declared, v.name = name ∧ v.isMutable = true ∧ r'.get? name = some (!v.default) ∧
        (r.contains name = true → ¬ Shows g a name) := by
  obtain ⟨context, before, F, after, hcontext, hsets, _, _, rfl⟩ := h
  have hF : F.Sublist (g.unknownMutables context) :=
    Search.mem_flipSets.mp (hsets ▸ List.mem_append_cons_self)
  have hflipped : g.Flipped context (flipAll context F) := ⟨F, hF, rfl⟩
  rw [patch, Table.get?_update_entries, Valuation.get?_flipsFrom]
  by_cases hk : context.contains name = true
  · rw [if_pos hk]
    exact Or.inl rfl
  · rw [if_neg hk]
    cases hf : (flipAll context F).get? name with
    | none => exact Or.inl rfl
    | some b =>
      right
      rcases hflipped.get?_eq_some hg hf with hc | ⟨v, hv, hm, _, hn, rfl⟩
      · exact absurd (Table.contains_iff.mpr ⟨b, hc⟩) hk
      · exact ⟨v, hv, hn, hm, rfl, fun hr hs => hk (contains_firingContext hcontext hs hr)⟩

theorem Explained.contains (h : Explained g a r r') (hr : r.contains name = true) :
    r'.contains name = true := by
  rcases h.get?_cases hg name with he | ⟨v, _, _, _, he, _⟩
  · rwa [Table.contains, he]
  · rw [Table.contains, he]
    rfl

/-- **A replay changes a history** only in mutables that the context of some firing leaves open. -/
theorem Explains.get?_cases (h : Explains g l c r) (name : String) :
    r.get? name = c.get? name ∨
      ∃ v ∈ g.declared, v.name = name ∧ v.isMutable = true ∧ r.get? name = some (!v.default) ∧
        (c.contains name = true → ∃ a ∈ l, ¬ Shows g a name) := by
  induction h with
  | nil c => exact Or.inl rfl
  | @cons a l c c' r first rest ih =>
    rcases ih with he | ⟨v, hv, hn, hm, hr, hshow⟩
    · rw [he]
      rcases first.get?_cases hg name with he' | ⟨v, hv, hn, hm, hr, hshow⟩
      · exact Or.inl he'
      · exact Or.inr ⟨v, hv, hn, hm, hr, fun hc => ⟨a, List.mem_cons_self, hshow hc⟩⟩
    · refine Or.inr ⟨v, hv, hn, hm, hr, ?_⟩
      intro hc
      obtain ⟨d, hd, hs⟩ := hshow (first.contains hg hc)
      exact ⟨d, List.mem_cons_of_mem a hd, hs⟩

variable (hl : g.IsLocal)

include hl

/-! ### No failure -/

theorem exists_attempt (r context firing : Valuation) :
    ∃ o, attempt g r context firing = .ok o := by
  unfold attempt
  rcases Graph.isConsistent_cases hg hl .exact firing with ⟨_, hq⟩ | ⟨_, hq⟩
  · rw [hq, ok_bind, if_pos rfl]
    dsimp only
    rcases Graph.isConsistent_cases hg hl .latched
      (r.update (firing.flipsFrom context).entries) with ⟨_, hp⟩ | ⟨_, hp⟩
    · rw [hp]
      exact ⟨_, rfl⟩
    · rw [hp]
      exact ⟨_, rfl⟩
  · rw [hq]
    exact ⟨_, rfl⟩

theorem exists_explain (h : Declared g a) (r : Valuation) : ∃ o, explain g r a = .ok o := by
  obtain ⟨context, hcontext⟩ := exists_firingContext h r
  rw [explain_of_context hcontext]
  exact Search.exists_first (exists_attempt hg hl r context) _ _

theorem exists_explainAll (h : ∀ a ∈ l, Declared g a) (c : Valuation) :
    ∃ o, explainAll g l c = .ok o := by
  induction l generalizing c with
  | nil => exact ⟨_, rfl⟩
  | cons a rest ih =>
    obtain ⟨o, ho⟩ := exists_explain hg hl (h a List.mem_cons_self) c
    rw [explainAll, ho, ok_bind]
    cases o with
    | none => exact ⟨_, rfl⟩
    | some c' => exact ih (fun d hd => h d (List.mem_cons_of_mem a hd)) c'

theorem exists_allFire (h : ∀ a ∈ l, Declared g a) (r : Valuation) :
    ∃ b, allFire g r l = .ok b := by
  induction l with
  | nil => exact ⟨_, rfl⟩
  | cons a rest ih =>
    obtain ⟨context, hcontext⟩ := exists_firingContext (h a List.mem_cons_self) r
    have hrest := ih fun d hd => h d (List.mem_cons_of_mem a hd)
    rw [allFire, fires, hcontext, ok_bind]
    rcases Graph.isConsistent_cases hg hl .exact context with ⟨_, hq⟩ | ⟨_, hq⟩
    · rw [hq]
      exact hrest
    · rw [hq]
      exact ⟨_, rfl⟩

/-- **A replay never fails**: it explains all firings, or it cannot. -/
theorem exists_replay (h : ∀ a ∈ l, Declared g a) (c : Valuation) :
    ∃ o, replay g l c = .ok o := by
  obtain ⟨o, ho⟩ := exists_explainAll hg hl h c
  rw [replay, ho, ok_bind]
  cases o with
  | none => exact ⟨_, rfl⟩
  | some r =>
    obtain ⟨b, hb⟩ := exists_allFire hg hl h r
    dsimp only
    rw [hb]
    exact ⟨_, rfl⟩

theorem explain_of_explained (h : Explained g a r r') : explain g r a = .ok (some r') := by
  obtain ⟨context, before, F, after, hcontext, hsets, hworks, hbefore, rfl⟩ := h
  rw [explain_of_context hcontext, Search.first_eq_some_iff]
  refine ⟨before, F, after, hsets, attempt_of_works hworks, ?_⟩
  intro G hG
  obtain ⟨o, ho⟩ := exists_attempt hg hl r context (flipAll context G)
  cases o with
  | none => exact ho
  | some s => exact absurd (works_of_attempt ho).1 (hbefore G hG)

theorem explainAll_of_explains (h : Explains g l c r) : explainAll g l c = .ok (some r) := by
  induction h with
  | nil c => rfl
  | cons first _ ih =>
    rw [explainAll, explain_of_explained hg hl first, ok_bind]
    exact ih

/-- **What a replay computes**: the firings are explained one after another, and in the end every
context has a completion by defaults. -/
theorem replay_eq_some_iff :
    replay g l c = .ok (some r) ↔ Explains g l c r ∧ ∀ a ∈ l, FiresByDefault g r a := by
  refine ⟨?_, ?_⟩
  · exact explains_of_replay
  · rintro ⟨hexplains, hfire⟩
    rw [replay, explainAll_of_explains hg hl hexplains, ok_bind]
    dsimp only
    rw [allFire_eq_true_iff.mpr hfire]
    rfl

end

/-! ### Contexts that need no flips -/

theorem explained_self (hr : g.Consistent .latched r) (h : FiresByDefault g r a) :
    Explained g a r r := by
  obtain ⟨context, hcontext, hc⟩ := h
  have hsame : patch r context [] = r := by
    show r.update (context.flipsFrom context).entries = r
    rw [Valuation.entries_flipsFrom_self]
    rfl
  have hsets : flipSets (g.unknownMutables context) =
      [] ++ [] :: (flipSets (g.unknownMutables context)).tail := Search.flipSets_eq_cons _
  refine ⟨context, [], [], _, hcontext, hsets, ⟨hc, ?_⟩, by simp, hsame.symm⟩
  rw [hsame]
  exact hr

/-- **Where every context has a completion by defaults**, the replay changes nothing. -/
theorem explains_self (hc : g.Consistent .latched c) (h : ∀ a ∈ l, FiresByDefault g c a) :
    Explains g l c c := by
  induction l with
  | nil => exact .nil c
  | cons a rest ih =>
    exact .cons (explained_self hc (h a List.mem_cons_self))
      (ih fun d hd => h d (List.mem_cons_of_mem a hd))

end Chronicle.Arrival
