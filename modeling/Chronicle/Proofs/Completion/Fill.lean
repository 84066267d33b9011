import Chronicle.Proofs.Graph.Valid
import Chronicle.Search

/-!
# Defaults

`fill` gives every unknown mutable its default and touches nothing else.
-/

namespace Chronicle.Graph

theorem get?_fillFrom {vs : List Variable} (h : (vs.map Variable.name).Nodup) (p : Valuation)
    (name : String) :
    (vs.foldl (fun s m => if s.contains m.name then s else s.set m.name m.default) p).get? name =
      (p.get? name).or ((findIn vs name).map Variable.default) := by
  induction vs generalizing p with
  | nil => simp [findIn]
  | cons m rest ih =>
    rw [List.map_cons, List.nodup_cons] at h
    rw [List.foldl_cons, ih h.2]
    by_cases hn : m.name = name
    · subst hn
      have hrest : findIn rest m.name = none := findIn_eq_none_iff.mpr h.1
      have hfirst : findIn (m :: rest) m.name = some m := by simp [findIn]
      rw [hrest, hfirst]
      cases hp : p.get? m.name with
      | some b => simp [Table.contains, hp]
      | none => simp [Table.contains, hp]
    · have hfirst : findIn (m :: rest) name = findIn rest name := by simp [findIn, hn]
      rw [hfirst]
      split
      · rfl
      · rw [Table.get?_set_of_ne _ hn]

variable {g : Graph} (hg : g.WellFormed) {p : Valuation} {v : Variable} {name : String}

include hg

theorem WellFormed.mutables_nodup : (g.mutables.map Variable.name).Nodup :=
  (List.filter_sublist.map Variable.name).nodup hg.nodup

theorem get?_fill (p : Valuation) (name : String) :
    (g.fill p).get? name = (p.get? name).or ((findIn g.mutables name).map Variable.default) :=
  get?_fillFrom hg.mutables_nodup p name

theorem fill_extends (p : Valuation) : (g.fill p).Extends p := by
  intro name b h
  rw [get?_fill hg, h, Option.some_or]

theorem get?_fill_mutable (hv : v ∈ g.declared) (hm : v.isMutable = true)
    (h : p.get? v.name = none) : (g.fill p).get? v.name = some v.default := by
  have hf : findIn g.mutables v.name = some v :=
    (findIn_eq_some_iff hg.mutables_nodup).mpr ⟨List.mem_filter.mpr ⟨hv, hm⟩, rfl⟩
  rw [get?_fill hg, h, hf]
  rfl

theorem get?_fill_of_notMem (h : name ∉ g.mutables.map Variable.name) :
    (g.fill p).get? name = p.get? name := by
  rw [get?_fill hg, findIn_eq_none_iff.mpr h, Option.map_none, Option.or_none]

theorem contains_fill_iff :
    (g.fill p).contains name = true ↔
      p.contains name = true ∨ name ∈ g.mutables.map Variable.name := by
  have hf : name ∈ g.mutables.map Variable.name ↔ (findIn g.mutables name).isSome = true := by
    rw [Option.isSome_iff_ne_none, Ne, findIn_eq_none_iff, not_not]
  rw [hf, Table.contains, Table.contains, get?_fill hg, Option.isSome_or, Option.isSome_map,
    Bool.or_eq_true]

theorem WellFormed.name_mem_mutables_iff (hv : v ∈ g.declared) :
    v.name ∈ g.mutables.map Variable.name ↔ v.isMutable = true := by
  refine ⟨?_, ?_⟩
  · intro h
    obtain ⟨w, hw, he⟩ := List.mem_map.mp h
    obtain ⟨hw, hm⟩ := List.mem_filter.mp hw
    exact hg.eq_of_name hw hv he ▸ hm
  · intro h
    exact List.mem_map.mpr ⟨v, List.mem_filter.mpr ⟨hv, h⟩, rfl⟩

end Chronicle.Graph
