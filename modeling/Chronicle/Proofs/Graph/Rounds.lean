import Chronicle.Formula
import Chronicle.Proofs.Graph.Order
import Mathlib.Data.List.Chain
import Mathlib.Logic.Relation
import Mathlib.Order.Lattice.Nat

/-!
# Rounds and chains

Direct dependencies form chains, and the rounds that make the evaluation order count them: what is
pending after `k` rounds is exactly what has a chain of `k` computed variables below it
(`Stage.next`).  So a variable is placed in the round of its depth, which is the length of the
longest chain below it.

No chain is longer than the list of variables unless it comes to a name twice.  Hence the variables
that no round places are those with chains of every length, and these are the ones that lie on a
cycle or depend on one (`entangled_iff`).  Whether there are any decides how the rounds end
(`evaluationOrder_by_depth`).
-/

namespace Chronicle.Graph

open Relation (ReflTransGen TransGen)

/-- A computed variable has another among its direct dependencies, both being declared.  A mutable
draws on nothing. -/
structure DrawsOn (vs : List Variable) (v w : Variable) : Prop where
  left : v ∈ vs
  right : w ∈ vs
  computed : v.isMutable = false
  direct : w.symbol ∈ v.dependencies

/-- A chain of dependencies goes down from a variable through `n` computed ones. -/
def HasChain (vs : List Variable) (n : Nat) (v : Variable) : Prop :=
  ∃ l, (v :: l).IsChain (DrawsOn vs) ∧ l.countP (fun w => !w.isMutable) = n

/-- The length of the longest chain below a variable. -/
noncomputable def depth (vs : List Variable) (v : Variable) : Nat := sSup {n | HasChain vs n v}

/-- Less deep, or as deep and declared earlier. -/
def Before (vs : List Variable) (v w : Variable) : Prop :=
  depth vs v < depth vs w ∨ depth vs v = depth vs w ∧
    (vs.map Variable.name).idxOf v.name < (vs.map Variable.name).idxOf w.name

/-- The variable lies on a cycle of dependencies, or depends on what does. -/
def Entangled (vs : List Variable) (v : Variable) : Prop :=
  ∃ w, ReflTransGen (DrawsOn vs) v w ∧ TransGen (DrawsOn vs) w w

section

variable {vs : List Variable} {v w : Variable} {n k : Nat}

/-! ### Chains -/

theorem hasChain_zero (vs : List Variable) (v : Variable) : HasChain vs 0 v :=
  ⟨[], List.isChain_singleton v, rfl⟩

theorem hasChain_succ_iff :
    HasChain vs (n + 1) v ↔ ∃ w, DrawsOn vs v w ∧ w.isMutable = false ∧ HasChain vs n w := by
  refine ⟨?_, ?_⟩
  · rintro ⟨l, hl, hn⟩
    cases l with
    | nil => cases hn
    | cons w rest =>
      obtain ⟨hdraws, hrest⟩ := List.isChain_cons_cons.mp hl
      cases hm : w.isMutable with
      | false =>
        rw [List.countP_cons_of_pos (by simp [hm])] at hn
        exact ⟨w, hdraws, hm, rest, hrest, by omega⟩
      | true =>
        -- A chain ends with a mutable, and then it has no computed variable at all.
        cases rest with
        | nil => simp [hm] at hn
        | cons u rest =>
          have hcomputed := (List.isChain_cons_cons.mp hrest).1.computed
          rw [hm] at hcomputed
          cases hcomputed
  · rintro ⟨w, hdraws, hm, l, hl, hn⟩
    refine ⟨w :: l, List.isChain_cons_cons.mpr ⟨hdraws, hl⟩, ?_⟩
    rw [List.countP_cons_of_pos (by simp [hm]), hn]

theorem HasChain.pred (h : HasChain vs (n + 1) v) : HasChain vs n v := by
  induction n generalizing v with
  | zero => exact hasChain_zero vs v
  | succ n ih =>
    obtain ⟨w, hdraws, hm, hw⟩ := hasChain_succ_iff.mp h
    exact hasChain_succ_iff.mpr ⟨w, hdraws, hm, ih hw⟩

theorem HasChain.of_le (h : HasChain vs n v) (hk : k ≤ n) : HasChain vs k v := by
  induction n with
  | zero => exact Nat.le_zero.mp hk ▸ h
  | succ n ih =>
    rcases Nat.le_succ_iff.mp hk with hk | rfl
    · exact ih h.pred hk
    · exact h

theorem isGreatest_of_hasChain (h : HasChain vs n v) (hn : ¬ HasChain vs (n + 1) v) :
    IsGreatest {n | HasChain vs n v} n := by
  refine ⟨h, ?_⟩
  intro k hk
  by_contra hlt
  exact hn (HasChain.of_le hk (by omega))

/-! ### Cycles -/

theorem Entangled.computed (h : Entangled vs v) : v.isMutable = false := by
  obtain ⟨w, hpath, hcycle⟩ := h
  rcases hpath.cases_head with rfl | ⟨u, hdraws, _⟩
  · obtain ⟨u, hdraws, _⟩ := TransGen.head'_iff.mp hcycle
    exact hdraws.computed
  · exact hdraws.computed

theorem Entangled.exists_draws (h : Entangled vs v) : ∃ w, DrawsOn vs v w ∧ Entangled vs w := by
  obtain ⟨w, hpath, hcycle⟩ := h
  rcases hpath.cases_head with rfl | ⟨u, hdraws, hrest⟩
  · obtain ⟨u, hdraws, hback⟩ := TransGen.head'_iff.mp hcycle
    exact ⟨u, hdraws, v, hback, hcycle⟩
  · exact ⟨u, hdraws, w, hrest, hcycle⟩

theorem Entangled.hasChain (h : Entangled vs v) (n : Nat) : HasChain vs n v := by
  induction n generalizing v with
  | zero => exact hasChain_zero vs v
  | succ n ih =>
    obtain ⟨w, hdraws, hw⟩ := h.exists_draws
    exact hasChain_succ_iff.mpr ⟨w, hdraws, hw.computed, ih hw⟩

theorem mem_of_isChain {l : List Variable} (hv : v ∈ vs) (h : (v :: l).IsChain (DrawsOn vs)) :
    ∀ w ∈ v :: l, w ∈ vs := by
  induction l generalizing v with
  | nil =>
    intro w hw
    exact List.mem_singleton.mp hw ▸ hv
  | cons u rest ih =>
    obtain ⟨hdraws, hrest⟩ := List.isChain_cons_cons.mp h
    intro w hw
    rcases List.mem_cons.mp hw with rfl | hw
    · exact hv
    · exact ih hdraws.right hrest w hw

/-- Where nothing is entangled a chain comes to no variable twice. -/
theorem nodup_of_isChain {l : List Variable} (h : l.IsChain (DrawsOn vs))
    (hfree : ∀ w ∈ l, ¬ TransGen (DrawsOn vs) w w) : l.Nodup := by
  have htrans : l.Pairwise (TransGen (DrawsOn vs)) :=
    List.isChain_iff_pairwise.mp (h.imp fun _ _ hdraws => TransGen.single hdraws)
  refine htrans.imp_of_mem ?_
  rintro a b ha _ hab rfl
  exact hfree a ha hab

theorem reflTransGen_of_isChain {l : List Variable} (h : (v :: l).IsChain (DrawsOn vs)) :
    ∀ w ∈ v :: l, ReflTransGen (DrawsOn vs) v w := by
  induction l generalizing v with
  | nil =>
    intro w hw
    rw [List.mem_singleton.mp hw]
  | cons u rest ih =>
    obtain ⟨hdraws, hrest⟩ := List.isChain_cons_cons.mp h
    intro w hw
    rcases List.mem_cons.mp hw with rfl | hw
    · exact .refl
    · exact (ih hrest w hw).head hdraws

/-- **What is entangled** has chains of every length, and nothing else has. -/
theorem entangled_iff (hv : v ∈ vs) : Entangled vs v ↔ ∀ n, HasChain vs n v := by
  refine ⟨Entangled.hasChain, ?_⟩
  intro h
  by_contra hfree
  obtain ⟨l, hl, hn⟩ := h vs.length
  have hnodup : (v :: l).Nodup := nodup_of_isChain hl fun w hw hcycle =>
    hfree ⟨w, reflTransGen_of_isChain hl w hw, hcycle⟩
  have hle : (v :: l).length ≤ vs.length :=
    (List.subperm_of_subset hnodup (mem_of_isChain hv hl)).length_le
  have hcount := List.countP_le_length (p := fun w : Variable => !w.isMutable) (l := l)
  rw [List.length_cons] at hle
  omega

end

theorem not_cyclic_of_lt {vs : List Variable} (rank : Variable → Nat)
    (h : ∀ v w, DrawsOn vs v w → rank w < rank v) : ∀ v, ¬ TransGen (DrawsOn vs) v v := by
  have hlt : ∀ {v w}, TransGen (DrawsOn vs) v w → rank w < rank v := by
    intro v w hpath
    induction hpath with
    | single hdraws => exact h _ _ hdraws
    | tail _ hdraws ih => exact (h _ _ hdraws).trans ih
  exact fun v hcycle => Nat.lt_irrefl _ (hlt hcycle)

/-! ### What a round does -/

/-- Where the rounds are after `k` of them: what has a chain of `k` below it is pending, and all
else is placed. -/
structure Stage (vs : List Variable) (k : Nat) (placed : List String) (pending : List Variable) :
    Prop where
  sublist : pending.Sublist vs
  mem_iff : ∀ v ∈ vs, v ∈ pending ↔ v.isMutable = false ∧ HasChain vs k v
  placed_iff : ∀ v ∈ vs, v.name ∈ placed ↔ v ∉ pending

section

variable {vs pending order : List Variable} {placed : List String} {v w : Variable} {k rounds : Nat}
  (hn : (vs.map Variable.name).Nodup)
  (hd : ∀ v ∈ vs, ∀ s ∈ v.dependencies, ∃ w ∈ vs, w.symbol = s)

theorem idxOf_lt_of_sublist {l : List String} {a b : String} (hl : l.Nodup)
    (h : [a, b].Sublist l) : l.idxOf a < l.idxOf b := by
  induction l with
  | nil => cases h
  | cons c rest ih =>
    obtain ⟨hc, hrest⟩ := List.nodup_cons.mp hl
    cases h with
    | cons _ h =>
      have ha : c ≠ a := fun he => hc (he ▸ h.subset (by simp))
      have hb : c ≠ b := fun he => hc (he ▸ h.subset (by simp))
      rw [List.idxOf_cons_ne _ ha, List.idxOf_cons_ne _ hb]
      exact Nat.succ_lt_succ (ih hrest h)
    | cons_cons _ h =>
      have hb : a ≠ b := fun he => hc (he ▸ h.subset (by simp))
      rw [List.idxOf_cons_self, List.idxOf_cons_ne _ hb]
      exact Nat.succ_pos _

include hn in
theorem stage_zero : Stage vs 0 ((vs.filter Variable.isMutable).map Variable.name)
    (vs.filter fun v => !v.isMutable) where
  sublist := List.filter_sublist
  mem_iff := by
    intro v hv
    simp [List.mem_filter, hv, hasChain_zero]
  placed_iff := by
    intro v hv
    rw [List.mem_map, List.mem_filter]
    refine ⟨?_, ?_⟩
    · rintro ⟨w, hw, he⟩
      obtain ⟨hw, hm⟩ := List.mem_filter.mp hw
      obtain rfl := List.inj_on_of_nodup_map hn hw hv he
      simp [hm]
    · intro h
      exact ⟨v, List.mem_filter.mpr ⟨hv, by simpa [hv] using h⟩, rfl⟩

theorem layers_stuck (hp : pending ≠ []) (hr : pending.filter (isReady placed) = [])
    (rounds : Nat) :
    layers (rounds + 1) placed pending = .error (.cycle (pending.map Variable.name)) := by
  simp [layers, hp, hr]

theorem layers_round (hr : pending.filter (isReady placed) ≠ []) :
    layers (rounds + 1) placed pending =
      layers rounds (placed ++ (pending.filter (isReady placed)).map Variable.name)
        (pending.filter fun v => !isReady placed v) >>= fun rest =>
          .ok (pending.filter (isReady placed) ++ rest) := by
  have hp : pending ≠ [] := fun hp => hr (by rw [hp, List.filter_nil])
  simp only [layers, List.isEmpty_iff, hp, hr, if_false, pure_eq_ok]

/-- **As many rounds as there are variables suffice**: more change nothing. -/
theorem layers_more (hr : pending.length ≤ rounds) (more : Nat) :
    layers (rounds + more) placed pending = layers rounds placed pending := by
  induction rounds generalizing placed pending with
  | zero =>
    have hp : pending = [] := List.length_eq_zero_iff.mp (by omega)
    subst hp
    cases more <;> rfl
  | succ rounds ih =>
    rw [Nat.add_right_comm]
    by_cases hready : pending.filter (isReady placed) = []
    · by_cases hp : pending = []
      · subst hp
        rfl
      · rw [layers_stuck hp hready, layers_stuck hp hready]
    · have hlt := length_unready_lt hready
      rw [layers_round hready, layers_round hready, ih (by omega)]

section

include hd

/-- **A variable is not ready** as long as some chain below it is longer than the rounds so far. -/
theorem Stage.unready_iff (h : Stage vs k placed pending) (hv : v ∈ vs)
    (hm : v.isMutable = false) : isReady placed v = false ↔ HasChain vs (k + 1) v := by
  rw [← Bool.not_eq_true, isReady_iff, hasChain_succ_iff, not_iff_comm]
  refine ⟨?_, ?_⟩
  · rintro hnone name ⟨s, hs, rfl⟩
    obtain ⟨w, hw, rfl⟩ := hd v hv s hs
    refine (h.placed_iff w hw).mpr ?_
    intro hpending
    obtain ⟨hwm, hchain⟩ := (h.mem_iff w hw).mp hpending
    exact hnone ⟨w, ⟨hv, hw, hm, hs⟩, hwm, hchain⟩
  · rintro hready ⟨w, hdraws, hwm, hw⟩
    have hplaced := hready w.name ⟨w.symbol, hdraws.direct, rfl⟩
    exact (h.placed_iff w hdraws.right).mp hplaced ((h.mem_iff w hdraws.right).mpr ⟨hwm, hw⟩)

theorem Stage.isGreatest (h : Stage vs k placed pending)
    (hv : v ∈ pending.filter (isReady placed)) : IsGreatest {n | HasChain vs n v} k := by
  obtain ⟨hv, hready⟩ := List.mem_filter.mp hv
  have hdec := h.sublist.subset hv
  obtain ⟨hm, hchain⟩ := (h.mem_iff v hdec).mp hv
  refine isGreatest_of_hasChain hchain ?_
  rw [← h.unready_iff hd hdec hm, hready]
  exact nofun

theorem Stage.hasChain_of_stuck (h : Stage vs k placed pending)
    (hstuck : pending.filter (isReady placed) = []) (hv : v ∈ pending) (n : Nat) :
    HasChain vs n v := by
  induction n generalizing v with
  | zero => exact hasChain_zero vs v
  | succ n ih =>
    have hdec := h.sublist.subset hv
    obtain ⟨hm, _⟩ := (h.mem_iff v hdec).mp hv
    have hunready := Bool.eq_false_iff.mpr (List.filter_eq_nil_iff.mp hstuck v hv)
    obtain ⟨w, hdraws, hwm, hw⟩ := hasChain_succ_iff.mp ((h.unready_iff hd hdec hm).mp hunready)
    exact hasChain_succ_iff.mpr
      ⟨w, hdraws, hwm, ih ((h.mem_iff w hdraws.right).mpr ⟨hwm, hw⟩)⟩

end

include hn hd

/-- **A round goes one link up**: it leaves pending what has a chain longer by one. -/
theorem Stage.next (h : Stage vs k placed pending) :
    Stage vs (k + 1) (placed ++ (pending.filter (isReady placed)).map Variable.name)
      (pending.filter fun v => !isReady placed v) where
  sublist := List.filter_sublist.trans h.sublist
  mem_iff := by
    intro v hv
    rw [List.mem_filter, h.mem_iff v hv, Bool.not_eq_true']
    refine ⟨?_, ?_⟩
    · rintro ⟨⟨hm, _⟩, hunready⟩
      exact ⟨hm, (h.unready_iff hd hv hm).mp hunready⟩
    · rintro ⟨hm, hchain⟩
      exact ⟨⟨hm, hchain.pred⟩, (h.unready_iff hd hv hm).mpr hchain⟩
  placed_iff := by
    intro v hv
    rw [List.mem_append, h.placed_iff v hv, List.mem_filter, not_and]
    refine ⟨?_, ?_⟩
    · rintro (hout | hready) hpending
      · exact absurd hpending hout
      · obtain ⟨u, hu, he⟩ := List.mem_map.mp hready
        obtain ⟨hu, hur⟩ := List.mem_filter.mp hu
        obtain rfl := List.inj_on_of_nodup_map hn (h.sublist.subset hu) hv he
        simp [hur]
    · intro himp
      by_cases hpending : v ∈ pending
      · refine Or.inr (List.mem_map_of_mem (List.mem_filter.mpr ⟨hpending, ?_⟩))
        simpa using himp hpending
      · exact Or.inl hpending

/-- What one round places is in the order of declaration. -/
theorem Stage.pairwise_ready (h : Stage vs k placed pending) :
    (pending.filter (isReady placed)).Pairwise (Before vs) := by
  rw [List.pairwise_iff_forall_sublist]
  intro v w hvw
  have hdepth : ∀ u ∈ [v, w], depth vs u = k := fun u hu =>
    (h.isGreatest hd (hvw.subset hu)).csSup_eq
  refine Or.inr ⟨?_, ?_⟩
  · rw [hdepth v (by simp), hdepth w (by simp)]
  · exact idxOf_lt_of_sublist hn
      ((hvw.trans (List.filter_sublist.trans h.sublist)).map Variable.name)

/-- **How the rounds end**: all is placed in the order of depths, or what is entangled is left. -/
theorem Stage.run (h : Stage vs k placed pending) (hr : pending.length ≤ rounds) :
    (∃ order, layers rounds placed pending = .ok order ∧ order.Pairwise (Before vs) ∧
      ∀ v ∈ order, k ≤ depth vs v ∧ IsGreatest {n | HasChain vs n v} (depth vs v)) ∨
    ∃ l : List Variable, layers rounds placed pending = .error (.cycle (l.map Variable.name)) ∧
      l ≠ [] ∧ l.Sublist vs ∧ ∀ v ∈ vs, v ∈ l ↔ Entangled vs v := by
  induction rounds generalizing k placed pending with
  | zero => exact Or.inl ⟨[], rfl, List.Pairwise.nil, fun v hv => nomatch hv⟩
  | succ rounds ih =>
    by_cases hp : pending = []
    · subst hp
      exact Or.inl ⟨[], rfl, List.Pairwise.nil, fun v hv => nomatch hv⟩
    by_cases hready : pending.filter (isReady placed) = []
    · refine Or.inr ⟨pending, layers_stuck hp hready rounds, hp, h.sublist, ?_⟩
      intro v hv
      rw [entangled_iff hv]
      refine ⟨h.hasChain_of_stuck hd hready, ?_⟩
      intro hchain
      exact (h.mem_iff v hv).mpr ⟨((entangled_iff hv).mpr hchain).computed, hchain k⟩
    have hlt := length_unready_lt hready
    rw [layers_round hready]
    rcases ih (h.next hn hd) (by omega) with ⟨rest, hrest, hsorted, hdeep⟩ | ⟨l, hl, hrest⟩
    · rw [hrest]
      refine Or.inl ⟨_, rfl, ?_, ?_⟩
      · refine List.pairwise_append.mpr ⟨h.pairwise_ready hn hd, hsorted, ?_⟩
        intro v hv w hw
        have hdepth : depth vs v = k := (h.isGreatest hd hv).csSup_eq
        have hlater := (hdeep w hw).1
        exact Or.inl (by omega)
      · intro v hv
        rcases List.mem_append.mp hv with hv | hv
        · have hdepth : depth vs v = k := (h.isGreatest hd hv).csSup_eq
          rw [hdepth]
          exact ⟨Nat.le_refl k, h.isGreatest hd hv⟩
        · obtain ⟨hle, hgreatest⟩ := hdeep v hv
          exact ⟨by omega, hgreatest⟩
    · rw [hl]
      exact Or.inr ⟨l, rfl, hrest⟩

theorem exists_evaluationOrder (hfree : ∀ v, ¬ TransGen (DrawsOn vs) v v) :
    ∃ order, evaluationOrder vs = .ok order ∧ order.Pairwise (Before vs) ∧
      ∀ v ∈ order, IsGreatest {n | HasChain vs n v} (depth vs v) := by
  rcases (stage_zero hn).run hn hd (Nat.le_refl _) with
    ⟨order, horder, hsorted, hdeep⟩ | ⟨l, _, hne, hsub, hmem⟩
  · exact ⟨order, horder, hsorted, fun v hv => (hdeep v hv).2⟩
  · obtain ⟨v, hv⟩ := List.exists_mem_of_ne_nil l hne
    obtain ⟨w, _, hcycle⟩ := (hmem v (hsub.subset hv)).mp hv
    exact absurd hcycle (hfree w)

theorem evaluationOrder_of_cycle (hcycle : TransGen (DrawsOn vs) v v) :
    ∃ l : List Variable, evaluationOrder vs = .error (.cycle (l.map Variable.name)) ∧
      l.Sublist vs ∧ ∀ v ∈ vs, v ∈ l ↔ Entangled vs v := by
  rcases (stage_zero hn).run hn hd (Nat.le_refl _) with
    ⟨order, horder, _, hdeep⟩ | ⟨l, hl, _, hrest⟩
  · -- An order would place the variable, and then its chains have an end.
    have hentangled : Entangled vs v := ⟨v, .refl, hcycle⟩
    obtain ⟨u, hdraws, _⟩ := TransGen.head'_iff.mp hcycle
    have hmem : v ∈ order := (layers_perm (Nat.le_refl _) horder).mem_iff.mpr
      (List.mem_filter.mpr ⟨hdraws.left, by simp [hdraws.computed]⟩)
    have hle := (hdeep v hmem).2.2 (hentangled.hasChain (depth vs v + 1))
    omega
  · exact ⟨l, hl, hrest⟩

/-- **The evaluation order is by depth, and cycles are named exactly.**  The limit on the rounds is
never felt.  Without a cycle every derived and triggered variable is placed once, by the length of
the longest chain below it and then by the place of its declaration, and after all that it needs.
With a cycle the error names, in order of declaration, what lies on one or depends on one. -/
theorem evaluationOrder_by_depth :
    (∀ rounds ≥ (vs.filter fun v => !v.isMutable).length,
      layers rounds ((vs.filter Variable.isMutable).map Variable.name)
        (vs.filter fun v => !v.isMutable) = evaluationOrder vs) ∧
    ((∀ v, ¬ TransGen (DrawsOn vs) v v) →
      ∃ order, evaluationOrder vs = .ok order ∧ order.Perm (vs.filter fun v => !v.isMutable) ∧
        order.Pairwise (Before vs) ∧
        (∀ v ∈ order, IsGreatest {n | HasChain vs n v} (depth vs v)) ∧
        Follows Needs (· ∈ (vs.filter Variable.isMutable).map Variable.name) order) ∧
    ((∃ v, TransGen (DrawsOn vs) v v) →
      ∃ l : List Variable, evaluationOrder vs = .error (.cycle (l.map Variable.name)) ∧
        l.Sublist vs ∧ ∀ v ∈ vs, v ∈ l ↔ Entangled vs v) := by
  refine ⟨?_, ?_, ?_⟩
  · intro rounds hr
    obtain ⟨more, rfl⟩ := Nat.exists_eq_add_of_le hr
    exact layers_more (Nat.le_refl _) more
  · intro hfree
    obtain ⟨order, horder, hsorted, hdeep⟩ := exists_evaluationOrder hn hd hfree
    exact ⟨order, horder, layers_perm (Nat.le_refl _) horder, hsorted, hdeep,
      layers_follows horder⟩
  · rintro ⟨v, hcycle⟩
    exact evaluationOrder_of_cycle hn hd hcycle

end

/-! ### A cycle that is closed late -/

namespace Feedback

def power : Variable := ⟨⟨"power", 0⟩, .mutable false true, [], []⟩

def microphone : Variable :=
  ⟨⟨"microphone", 1⟩, .derived (Formula.value "power").rule, [power.symbol], [power.symbol]⟩

def speaker : Variable :=
  ⟨⟨"speaker", 2⟩, .derived (Formula.value "microphone").rule, [microphone.symbol],
    [microphone.symbol, power.symbol]⟩

def light : Variable :=
  ⟨⟨"light", 3⟩, .derived (Formula.value "power").rule, [power.symbol], [power.symbol]⟩

/-- Wakes up as soon as there is a sound. -/
def neighbour : Variable :=
  ⟨⟨"neighbour", 4⟩, .triggered (Formula.value "speaker").rule false, [speaker.symbol],
    [speaker.symbol, microphone.symbol, power.symbol]⟩

def room : List Variable := [neighbour, microphone, light, power, speaker]

/-- The microphone in front of the speaker, which was made after it. -/
def howling : Variable :=
  { microphone with dependencies := microphone.dependencies ++ [speaker.symbol] }

def loudRoom : List Variable := [neighbour, howling, light, power, speaker]

end Feedback

open Feedback in
/-- The light and the microphone come first, though the neighbour is declared before them.  In the
loud room only the light can be evaluated. -/
theorem evaluationOrder_by_depth_room :
    (evaluationOrder room = .ok [microphone, light, speaker, neighbour] ∧
      [microphone, light, speaker, neighbour].Pairwise (Before room)) ∧
    (∃ v, TransGen (DrawsOn loudRoom) v v) ∧
    ∀ v ∈ loudRoom, Entangled loudRoom v ↔ v.name ∈ ["neighbour", "microphone", "speaker"] := by
  have hroom : evaluationOrder room = .ok [microphone, light, speaker, neighbour] := rfl
  have hloud : evaluationOrder loudRoom =
      .error (.cycle ["neighbour", "microphone", "speaker"]) := rfl
  have hcycle : TransGen (DrawsOn loudRoom) howling howling := by
    refine .tail (.single (b := speaker) ?_) ?_
    · exact ⟨by simp [loudRoom], by simp [loudRoom], rfl, by decide⟩
    · exact ⟨by simp [loudRoom], by simp [loudRoom], rfl, by decide⟩
  have hserial : ∀ v ∈ room, ∀ s ∈ v.dependencies, s.serial < v.symbol.serial := by decide
  have hquiet : (room.map Variable.name).Nodup := by decide
  have hnames : (loudRoom.map Variable.name).Nodup := by decide
  refine ⟨⟨hroom, ?_⟩, ⟨howling, hcycle⟩, ?_⟩
  · obtain ⟨_, hfree, _⟩ := evaluationOrder_by_depth hquiet (by decide)
    obtain ⟨order, horder, _, hsorted, _⟩ := hfree
      (not_cyclic_of_lt (fun v => v.symbol.serial) fun v w h => hserial v h.left _ h.direct)
    rw [hroom] at horder
    cases horder
    exact hsorted
  · obtain ⟨_, _, hcyclic⟩ := evaluationOrder_by_depth hnames (by decide)
    obtain ⟨l, hl, hsub, hmem⟩ := hcyclic ⟨howling, hcycle⟩
    rw [hloud] at hl
    intro v hv
    rw [← hmem v hv, Error.cycle.inj (Except.error.inj hl), List.mem_map]
    refine ⟨fun h => ⟨v, h, rfl⟩, ?_⟩
    rintro ⟨u, hu, he⟩
    exact List.inj_on_of_nodup_map hnames (hsub.subset hu) hv he ▸ hu

end Chronicle.Graph
