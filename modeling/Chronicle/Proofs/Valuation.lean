import Chronicle.Period
import Mathlib.Data.List.Nodup

/-!
# Valuations and their look-ups

A valuation matters only through what it answers to a name.  This file says what every operation
on tables and valuations does to the answers, and orders valuations by them: `s.Extends p` if `s`
answers all that `p` answers, with the same value.

* `get?_flipsFrom`, `get?_without`, `get?_restrictedTo`: forgetting keeps an answer or drops it.
* `get?_collect`: what a period is asked through a view is what the view says of the variable of
  that name, as long as names are distinct.
* `update_empty`: writing a table into an empty one gives it back.
-/

namespace Chronicle

namespace Table

variable {α : Type} {t u : Table α} {name : String}

theorem eq_of_entries (h : t.entries = u.entries) : t = u := by
  cases t
  cases u
  congr

theorem contains_iff : t.contains name = true ↔ ∃ a, t.get? name = some a := by
  rw [contains, Option.isSome_iff_exists]

theorem contains_eq_false_iff : t.contains name = false ↔ t.get? name = none := by
  rw [contains, Option.isSome_eq_false_iff, Option.isNone_iff_eq_none]

theorem mem_names_iff_contains : name ∈ t.names ↔ t.contains name = true := mem_names_iff

theorem contains_set (other : String) (a : α) :
    (t.set name a).contains other = (decide (name = other) || t.contains other) := by
  rw [contains, get?_set]
  split <;> simp [contains, *]

theorem lookup_reverse {l : List (String × α)} (h : (l.map Prod.fst).Nodup) (name : String) :
    lookup name l.reverse = lookup name l := by
  refine Option.ext fun a => ?_
  rw [← mem_iff_lookup, ← mem_iff_lookup h, List.mem_reverse]
  rw [List.map_reverse]
  exact List.nodup_reverse.mpr h

theorem get?_ofList {l : List (String × α)} (h : (l.map Prod.fst).Nodup) (name : String) :
    (ofList l).get? name = lookup name l := by
  rw [ofList, get?_update, lookup_reverse h, get?_empty, Option.or_none]

theorem mem_of_lookup {l : List (String × α)} {a : α} (h : lookup name l = some a) :
    (name, a) ∈ l := by
  induction l with
  | nil => cases h
  | cons e rest ih =>
    obtain ⟨n, b⟩ := e
    rw [lookup] at h
    split at h
    next hn =>
      cases h
      exact hn ▸ List.mem_cons_self
    next => exact List.mem_cons_of_mem _ (ih h)

/-- Pairs that give each name the answer of one function make the table answer like it there. -/
theorem get?_update_of_forall {f : String → Option α} {l : List (String × α)}
    (h : ∀ e ∈ l, f e.1 = some e.2) (name : String) :
    (t.update l).get? name = if name ∈ l.map Prod.fst then f name else t.get? name := by
  rw [get?_update]
  cases hl : lookup name l.reverse with
  | none =>
    rw [lookup_eq_none_iff, List.map_reverse, List.mem_reverse] at hl
    rw [if_neg hl, Option.none_or]
  | some a =>
    have hmem : (name, a) ∈ l := List.mem_reverse.mp (mem_of_lookup hl)
    rw [if_pos (List.mem_map_of_mem hmem), h _ hmem, Option.some_or]

theorem put_of_notMem {l : List (String × α)} {a : α} (h : name ∉ l.map Prod.fst) :
    put name a l = l ++ [(name, a)] := by
  induction l with
  | nil => rfl
  | cons e rest ih =>
    obtain ⟨n, b⟩ := e
    rw [List.map_cons, List.mem_cons, not_or] at h
    rw [put, if_neg (Ne.symm h.1), ih h.2, List.cons_append]

theorem entries_update : ∀ (l : List (String × α)) (t : Table α),
    (t.names ++ l.map Prod.fst).Nodup → (t.update l).entries = t.entries ++ l := by
  intro l
  induction l with
  | nil => intro t _; exact (List.append_nil _).symm
  | cons e rest ih =>
    intro t h
    have hn : e.1 ∉ t.names := by
      intro he
      exact (List.nodup_append.mp h).2.2 _ he _ List.mem_cons_self rfl
    have hset : (t.set e.1 e.2).entries = t.entries ++ [e] := put_of_notMem hn
    have hrest := ih (t.set e.1 e.2) (by
      rw [names, hset, List.map_append, List.append_assoc]
      exact h)
    rw [hset, List.append_assoc] at hrest
    exact hrest

/-- **Writing a table into an empty one** gives it back, order included. -/
theorem update_empty (t : Table α) : (empty : Table α).update t.entries = t := by
  apply eq_of_entries
  exact entries_update t.entries empty t.nodup

end Table

namespace Valuation

variable {p q s : Valuation} {name : String} {b : Bool}

/-- What `p` knows, `s` knows with the same value. -/
def Extends (s p : Valuation) : Prop := ∀ name b, p.get? name = some b → s.get? name = some b

theorem extends_iff : s.Extends p ↔ ∀ e ∈ p.entries, s.get? e.1 = some e.2 := by
  refine ⟨?_, ?_⟩
  · intro h e he
    exact h e.1 e.2 (Table.mem_entries_iff.mp he)
  · intro h name b hb
    exact h (name, b) (Table.mem_entries_iff.mpr hb)

instance decidableExtends (s p : Valuation) : Decidable (s.Extends p) :=
  decidable_of_iff _ extends_iff.symm

theorem Extends.refl (p : Valuation) : p.Extends p := fun _ _ h => h

theorem Extends.trans (h : s.Extends q) (h' : q.Extends p) : s.Extends p :=
  fun name b hb => h name b (h' name b hb)

theorem Extends.contains (h : s.Extends p) (hp : p.contains name = true) :
    s.contains name = true := by
  obtain ⟨b, hb⟩ := Table.contains_iff.mp hp
  exact Table.contains_iff.mpr ⟨b, h name b hb⟩

theorem Extends.get?_eq (h : s.Extends p) (hp : p.contains name = true) :
    s.get? name = p.get? name := by
  obtain ⟨b, hb⟩ := Table.contains_iff.mp hp
  rw [hb, h name b hb]

theorem extends_set (h : p.get? name = none) (b : Bool) : Extends (p.set name b) p := by
  intro other c hc
  rw [Table.get?_set_of_ne]
  · exact hc
  · rintro rfl
    rw [h] at hc
    cases hc

@[simp] theorem get?_flipsFrom (p base : Valuation) (name : String) :
    (p.flipsFrom base).get? name = if base.contains name then none else p.get? name := by
  rw [flipsFrom, Table.get?_filter]
  cases base.contains name <;> rfl

theorem entries_flipsFrom_self (p : Valuation) : (p.flipsFrom p).entries = [] := by
  rw [flipsFrom, Table.filter, List.filter_eq_nil_iff]
  intro e he
  have hk : p.contains e.1 = true := Table.contains_iff.mpr ⟨e.2, Table.mem_entries_iff.mp he⟩
  simp [hk]

@[simp] theorem get?_without (p : Valuation) (names : List String) (name : String) :
    (p.without names).get? name = if name ∈ names then none else p.get? name := by
  rw [without, Table.get?_filter]
  by_cases h : name ∈ names <;> simp [h]

theorem extends_without (p : Valuation) (names : List String) : p.Extends (p.without names) := by
  intro name b hb
  rw [get?_without] at hb
  split at hb
  · cases hb
  · exact hb

@[simp] theorem get?_restrictedTo (p : Valuation) (names : List String) (name : String) :
    (p.restrictedTo names).get? name = if name ∈ names then p.get? name else none := by
  rw [restrictedTo, Table.get?_filter]
  by_cases h : name ∈ names <;> simp [h]

end Valuation

/-! ### Views of a period -/

namespace Graph

theorem findIn_eq_some_iff {vs : List Variable} (h : (vs.map Variable.name).Nodup) {name : String}
    {v : Variable} : findIn vs name = some v ↔ v ∈ vs ∧ v.name = name := by
  refine ⟨?_, ?_⟩
  · intro hf
    exact ⟨List.mem_of_find?_eq_some hf, by simpa using List.find?_some hf⟩
  · rintro ⟨hv, rfl⟩
    obtain ⟨w, hw⟩ : ∃ w, findIn vs v.name = some w := by
      refine Option.isSome_iff_exists.mp ?_
      rw [findIn, List.find?_isSome]
      exact ⟨v, hv, by simp⟩
    have hn : w.name = v.name := by simpa using List.find?_some hw
    rw [hw, List.inj_on_of_nodup_map h (List.mem_of_find?_eq_some hw) hv hn]

theorem findIn_eq_none_iff {vs : List Variable} {name : String} :
    findIn vs name = none ↔ name ∉ vs.map Variable.name := by
  rw [findIn, List.find?_eq_none]
  simp only [beq_iff_eq, List.mem_map, not_exists, not_and]

theorem find?_eq_some_iff {g : Graph} (h : g.names.Nodup) {name : String} {v : Variable} :
    g.find? name = some v ↔ v ∈ g.declared ∧ v.name = name := findIn_eq_some_iff h

theorem find?_name {g : Graph} (h : g.names.Nodup) {v : Variable} (hv : v ∈ g.declared) :
    g.find? v.name = some v := (find?_eq_some_iff h).mpr ⟨hv, rfl⟩

end Graph

namespace Period

variable {g : Graph}

theorem collect_eq_empty {view : Variable → Option Bool} (h : ∀ v ∈ g.declared, view v = none) :
    collect g view = .empty := by
  have hnone : g.declared.filterMap (fun v => (view v).map (v.name, ·)) = [] := by
    rw [List.filterMap_eq_nil_iff]
    intro v hv
    rw [h v hv]
    rfl
  rw [collect, hnone]
  rfl

theorem lookup_view {vs : List Variable} (h : (vs.map Variable.name).Nodup)
    (view : Variable → Option Bool) (name : String) :
    Table.lookup name (vs.filterMap fun v => (view v).map (v.name, ·)) =
      (Graph.findIn vs name).bind view := by
  induction vs with
  | nil => rfl
  | cons v rest ih =>
    rw [List.map_cons, List.nodup_cons] at h
    by_cases hn : v.name = name
    · subst hn
      have hf : Graph.findIn (v :: rest) v.name = some v := by simp [Graph.findIn]
      rw [hf, Option.bind_some, List.filterMap_cons]
      cases hv : view v with
      | some b => simp [Table.lookup]
      | none => simp [ih h.2, Graph.findIn_eq_none_iff.mpr h.1]
    · have hf : Graph.findIn (v :: rest) name = Graph.findIn rest name := by
        simp [Graph.findIn, hn]
      rw [hf, List.filterMap_cons]
      cases hv : view v with
      | some b => simp [Table.lookup, hn, ih h.2]
      | none => simp [ih h.2]

theorem names_view_sublist (vs : List Variable) (view : Variable → Option Bool) :
    ((vs.filterMap fun v => (view v).map (v.name, ·)).map Prod.fst).Sublist
      (vs.map Variable.name) := by
  induction vs with
  | nil => exact List.Sublist.refl _
  | cons v rest ih =>
    rw [List.filterMap_cons]
    cases view v with
    | some b => exact ih.cons_cons v.name
    | none => exact ih.cons v.name

/-- **What is collected through a view** is what the view says of each declared variable. -/
theorem get?_collect (h : g.names.Nodup) (view : Variable → Option Bool) (name : String) :
    (collect g view).get? name = (g.find? name).bind view := by
  rw [collect, Table.get?_ofList ((names_view_sublist _ _).nodup h), lookup_view h]
  rfl

theorem get?_collect_name (h : g.names.Nodup) (view : Variable → Option Bool) {v : Variable}
    (hv : v ∈ g.declared) : (collect g view).get? v.name = view v := by
  rw [get?_collect h, Graph.find?_name h hv, Option.bind_some]

theorem get?_collect_eq_some_iff (h : g.names.Nodup) {view : Variable → Option Bool}
    {name : String} {b : Bool} :
    (collect g view).get? name = some b ↔ ∃ v ∈ g.declared, v.name = name ∧ view v = some b := by
  rw [get?_collect h, Option.bind_eq_some_iff]
  refine ⟨?_, ?_⟩
  · rintro ⟨v, hf, hb⟩
    obtain ⟨hv, hn⟩ := (Graph.find?_eq_some_iff h).mp hf
    exact ⟨v, hv, hn, hb⟩
  · rintro ⟨v, hv, hn, hb⟩
    exact ⟨v, (Graph.find?_eq_some_iff h).mpr ⟨hv, hn⟩, hb⟩

end Period

end Chronicle
