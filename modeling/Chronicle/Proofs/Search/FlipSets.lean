import Chronicle.Proofs.Outcome
import Chronicle.Proofs.Valuation
import Chronicle.Search

/-!
# The search by flip sets

The depth-first search looks like a tree, but what it does is to go through one list: `flipSets`
names every set of candidates once, and the search accepts the first of them that it can
(`first_eq`).  This holds in every lawful monad, so it holds of the search that stops at the first
state as well as of the one that collects them.

`get?_flipAll` says what the flips of a set do to the answers of a valuation, and `mem_flipSets`
that the sets are the sublists of the candidates.
-/

namespace Chronicle.Search

section

variable {m : Type → Type} [Monad m] {α β γ : Type}

theorem findSomeM?_append [LawfulMonad m] (f : α → m (Option β)) (l k : List α) :
    (l ++ k).findSomeM? f = (do
      match ← l.findSomeM? f with
      | some b => return some b
      | none => k.findSomeM? f) := by
  induction l with
  | nil => simp
  | cons a rest ih =>
    simp only [List.cons_append, List.findSomeM?_cons, bind_assoc]
    refine bind_congr ?_
    intro r
    cases r with
    | some b => simp
    | none => simpa using ih

theorem findSomeM?_map (f : β → m (Option γ)) (h : α → β) (l : List α) :
    (l.map h).findSomeM? f = l.findSomeM? fun a => f (h a) := by
  induction l with
  | nil => rfl
  | cons a rest ih =>
    simp only [List.map_cons, List.findSomeM?_cons, ih]

end

def flipAll (p : Valuation) (F : List Variable) : Valuation := F.foldl flip p

/-! ### What is flipped -/

variable {p : Valuation} {F candidates : List Variable}

theorem get?_flipAll (h : (F.map Variable.name).Nodup) (p : Valuation) (name : String) :
    (flipAll p F).get? name =
      ((Graph.findIn F name).map fun v => !v.default).or (p.get? name) := by
  induction F generalizing p with
  | nil => simp [flipAll, Graph.findIn]
  | cons v rest ih =>
    rw [List.map_cons, List.nodup_cons] at h
    have hstep : flipAll p (v :: rest) = flipAll (flip p v) rest := rfl
    rw [hstep, ih h.2, flip, Table.get?_set]
    by_cases hn : v.name = name
    · subst hn
      have hrest : Graph.findIn rest v.name = none := Graph.findIn_eq_none_iff.mpr h.1
      have hfirst : Graph.findIn (v :: rest) v.name = some v := by simp [Graph.findIn]
      simp [hrest, hfirst]
    · have hfirst : Graph.findIn (v :: rest) name = Graph.findIn rest name := by
        simp [Graph.findIn, hn]
      rw [if_neg hn, hfirst]

theorem get?_flipAll_of_mem (h : (F.map Variable.name).Nodup) (p : Valuation) {v : Variable}
    (hv : v ∈ F) : (flipAll p F).get? v.name = some (!v.default) := by
  rw [get?_flipAll h, (Graph.findIn_eq_some_iff h).mpr ⟨hv, rfl⟩]
  rfl

theorem get?_flipAll_of_notMem (h : (F.map Variable.name).Nodup) (p : Valuation) {name : String}
    (hn : name ∉ F.map Variable.name) : (flipAll p F).get? name = p.get? name := by
  rw [get?_flipAll h, Graph.findIn_eq_none_iff.mpr hn]
  rfl

/-! ### The list of flip sets -/

theorem flipSets_eq_cons (candidates : List Variable) :
    flipSets candidates = [] :: (flipSets candidates).tail := by
  cases candidates <;> rfl

theorem mem_flipSets : F ∈ flipSets candidates ↔ F.Sublist candidates := by
  induction candidates generalizing F with
  | nil => simp [flipSets]
  | cons v rest ih =>
    rw [flipSets, List.mem_cons, List.mem_append, List.mem_map, List.sublist_cons_iff]
    have htail : F = [] ∨ F ∈ (flipSets rest).tail ↔ F.Sublist rest := by
      rw [← List.mem_cons, ← flipSets_eq_cons, ih]
    have hmap : (∃ G ∈ flipSets rest, v :: G = F) ↔ ∃ G, F = v :: G ∧ G.Sublist rest := by
      refine ⟨?_, ?_⟩
      · rintro ⟨G, hG, rfl⟩
        exact ⟨G, rfl, ih.mp hG⟩
      · rintro ⟨G, rfl, hG⟩
        exact ⟨G, ih.mpr hG, rfl⟩
    rw [hmap, ← htail, or_assoc]
    exact or_congr_right or_comm

section

variable {m : Type → Type} [Monad m] [LawfulMonad m] {β : Type}

theorem below_eq (accept : Valuation → m (Option β)) (candidates : List Variable) (p : Valuation) :
    below accept candidates p =
      (flipSets candidates).tail.findSomeM? fun F => accept (flipAll p F) := by
  induction candidates generalizing p with
  | nil => rfl
  | cons v rest ih =>
    have hsets : (flipSets (v :: rest)).tail =
        [v] :: ((flipSets rest).tail.map (v :: ·) ++ (flipSets rest).tail) := by
      show (flipSets rest).map (v :: ·) ++ (flipSets rest).tail = _
      conv_lhs => rw [flipSets_eq_cons rest]
      rfl
    rw [below, hsets, List.findSomeM?_cons]
    refine bind_congr ?_
    intro r
    cases r with
    | some b => rfl
    | none =>
      simp only [ih, findSomeM?_append, findSomeM?_map]
      rfl

/-- **The search goes through the flip sets in order** and takes the first that is accepted. -/
theorem first_eq (accept : Valuation → m (Option β)) (candidates : List Variable) (p : Valuation) :
    first accept candidates p = (flipSets candidates).findSomeM? fun F => accept (flipAll p F) := by
  rw [flipSets_eq_cons, List.findSomeM?_cons, first]
  refine bind_congr ?_
  intro r
  cases r with
  | some b => rfl
  | none => exact below_eq accept candidates p

end

/-! ### Searches that may fail -/

variable {ε β : Type} {accept : Valuation → Except ε (Option β)} {r : β}

theorem findSomeM?_eq_some_iff {α : Type} {f : α → Except ε (Option β)} {l : List α} :
    l.findSomeM? f = .ok (some r) ↔
      ∃ before a after, l = before ++ a :: after ∧ f a = .ok (some r) ∧
        ∀ x ∈ before, f x = .ok none := by
  induction l with
  | nil => simp
  | cons a rest ih =>
    rw [List.findSomeM?_cons, bind_eq_ok]
    refine ⟨?_, ?_⟩
    · rintro ⟨o, ho, h⟩
      cases o with
      | some b =>
        cases h
        exact ⟨[], a, rest, rfl, ho, by simp⟩
      | none =>
        obtain ⟨before, x, after, rfl, hx, hnone⟩ := ih.mp h
        refine ⟨a :: before, x, after, rfl, hx, ?_⟩
        intro y hy
        rcases List.mem_cons.mp hy with rfl | hy
        · exact ho
        · exact hnone y hy
    · rintro ⟨before, x, after, hl, hx, hnone⟩
      cases before with
      | nil =>
        obtain ⟨rfl, rfl⟩ := List.cons.inj hl
        exact ⟨some r, hx, rfl⟩
      | cons y before =>
        obtain ⟨rfl, rfl⟩ := List.cons.inj hl
        refine ⟨none, hnone a List.mem_cons_self, ih.mpr ⟨before, x, after, rfl, hx, ?_⟩⟩
        exact fun z hz => hnone z (List.mem_cons_of_mem a hz)

theorem findSomeM?_eq_none {α : Type} {f : α → Except ε (Option β)} {l : List α}
    (h : ∀ a ∈ l, f a = .ok none) : l.findSomeM? f = .ok none := by
  induction l with
  | nil => rfl
  | cons a rest ih =>
    rw [List.findSomeM?_cons, h a List.mem_cons_self]
    exact ih fun b hb => h b (List.mem_cons_of_mem a hb)

theorem findSomeM?_congr {α : Type} {f f' : α → Except ε (Option β)} {l : List α}
    (h : ∀ a ∈ l, f a = f' a) : l.findSomeM? f = l.findSomeM? f' := by
  induction l with
  | nil => rfl
  | cons a rest ih =>
    rw [List.findSomeM?_cons, List.findSomeM?_cons, h a List.mem_cons_self,
      ih fun b hb => h b (List.mem_cons_of_mem a hb)]

/-- **The search answers on the first set of flips** that is accepted. -/
theorem first_eq_some_iff :
    first accept candidates p = .ok (some r) ↔
      ∃ before F after, flipSets candidates = before ++ F :: after ∧
        accept (flipAll p F) = .ok (some r) ∧
        ∀ G ∈ before, accept (flipAll p G) = .ok none := by
  rw [first_eq, findSomeM?_eq_some_iff]

theorem exists_of_first_eq_some (h : first accept candidates p = .ok (some r)) :
    ∃ F, F.Sublist candidates ∧ accept (flipAll p F) = .ok (some r) := by
  obtain ⟨before, F, after, hsets, hr, _⟩ := first_eq_some_iff.mp h
  exact ⟨F, mem_flipSets.mp (hsets ▸ List.mem_append_cons_self), hr⟩

theorem first_of_total {f : Valuation → Option β} (h : ∀ q, accept q = .ok (f q))
    (candidates : List Variable) (p : Valuation) :
    first accept candidates p = .ok ((flipSets candidates).findSome? fun F => f (flipAll p F)) := by
  have hpure : (fun F => accept (flipAll p F)) = fun F => pure (f (flipAll p F)) :=
    funext fun F => h _
  rw [first_eq, hpure, List.findSomeM?_pure]
  rfl

/-- **Where nothing fails the search ends**: with the answer on some set of flips, or because there
is none on any. -/
theorem first_cases (h : ∀ q, ∃ o, accept q = .ok o) (candidates : List Variable) (p : Valuation) :
    (∃ F r, F.Sublist candidates ∧ accept (flipAll p F) = .ok (some r) ∧
      first accept candidates p = .ok (some r)) ∨
    (first accept candidates p = .ok none ∧
      ∀ F, F.Sublist candidates → accept (flipAll p F) = .ok none) := by
  choose f hf using h
  have hfirst := first_of_total hf candidates p
  cases hr : (flipSets candidates).findSome? fun F => f (flipAll p F) with
  | some r =>
    obtain ⟨F, hF, hq⟩ := List.exists_of_findSome?_eq_some hr
    exact Or.inl ⟨F, r, mem_flipSets.mp hF, by rw [hf, hq], by rw [hfirst, hr]⟩
  | none =>
    refine Or.inr ⟨by rw [hfirst, hr], ?_⟩
    intro F hF
    rw [hf, List.findSome?_eq_none_iff.mp hr F (mem_flipSets.mpr hF)]

theorem exists_first (h : ∀ q, ∃ o, accept q = .ok o) (candidates : List Variable)
    (p : Valuation) : ∃ o, first accept candidates p = .ok o := by
  rcases first_cases h candidates p with ⟨_, r, _, _, hr⟩ | ⟨hr, _⟩
  · exact ⟨some r, hr⟩
  · exact ⟨none, hr⟩

end Chronicle.Search
