import Chronicle.Proofs.Search.Aside
import Chronicle.Proofs.World.Firings
import Chronicle.Proofs.World.Lever
import Chronicle.Proofs.World.Reconciled

/-!
# What an examination finds

After a write the latches that depend on it are examined one by one, each on what is known without
it.  What they should find is one model, that of what is known without any of them
(`knowledgeAside`).  Where this model upholds what was seen of the others, each examination comes to
it: the search finds the same model with that knowledge as without it (`SetsAside.resolves`).
A latch that fires then forgets what is derived from it, so the model upholds what is known after it
as well, and so on to the last (`Examining.run`).
-/

namespace Chronicle

namespace Graph

variable {g : Graph} {t u : Variable}

theorem mem_goesWith_iff (hg : g.WellFormed) (ht : t ∈ g.declared) (hu : u ∈ g.declared) :
    u.name ∈ t.name :: (g.derivedDependentsOf t.name).map Variable.name ↔ GoesWith t u := by
  rw [List.mem_cons]
  refine or_congr ?_ ?_
  · exact ⟨fun he => hg.eq_of_name hu ht he, fun he => congrArg Variable.name he⟩
  · refine ⟨?_, ?_⟩
    · intro hn
      obtain ⟨d, hd, he⟩ := List.mem_map.mp hn
      obtain ⟨ho, hdep, hder⟩ := Period.mem_derivedDependentsOf.mp hd
      obtain rfl := hg.eq_of_name (hg.mem_order_iff.mp ho).1 hu he
      exact ⟨hder, hdep⟩
    · rintro ⟨hder, hdep⟩
      obtain ⟨rule, hr⟩ := Variable.role_of_isDerived hder
      have ho := hg.mem_order_iff.mpr ⟨hu, Variable.isMutable_of_derived hr⟩
      exact List.mem_map_of_mem (Period.mem_derivedDependentsOf.mpr ⟨ho, hdep, hder⟩)

theorem IsValid.mem_triggersDependentOn (hg : g.IsValid) {name : String}
    (ht : t ∈ g.triggersDependentOn name) (hu : u ∈ g.declared) (hd : u.isDerived = false)
    (hdep : u.dependsOn t.name = true) : u ∈ g.triggersDependentOn name := by
  obtain ⟨hdec, hname⟩ := hg.mem_dependentsOf_iff.mp (List.mem_filter.mp ht).1
  have hm := hg.isMutable_of_dependsOn hu hdep
  refine List.mem_filter.mpr ⟨?_, Variable.isTriggered_of_not hm hd⟩
  exact hg.mem_dependentsOf_iff.mpr ⟨hu, hg.closed.trans u hu t hdec hdep name hname⟩

end Graph

namespace World

open Chronicle.Graph (GoesWith)

variable {g : Graph} {w w' : World} {K M s : Valuation} {T l : List Variable} {t u v : Variable}
  {b prior : Bool} {name : String}

def silent (w : World) (l : List Variable) : List Variable :=
  l.filter fun t => w.current.peek t.name != some true

/-- What is known now of all but some latches and what is derived from them. -/
def knowledgeAside (w : World) (ts : List Variable) : Valuation :=
  w.knowledge.without
    (ts.flatMap fun t => t.name :: (w.graph.derivedDependentsOf t.name).map Variable.name)

/-- The model upholds what was seen of latches that are to be examined: it has the same values, but
the first of them may fire.  One latch alone has nothing to uphold. -/
def Upholds (w : World) (M : Valuation) : List Variable → Prop
  | [] | [_] => True
  | t :: _ :: _ => M.Extends (if M.get? t.name = some true then w.knowledgeWithout t
      else w.knowledge)

instance decidableUpholds (w : World) (M : Valuation) : ∀ l, Decidable (w.Upholds M l)
  | [] | [_] => inferInstanceAs (Decidable True)
  | t :: _ :: _ => inferInstanceAs (Decidable (M.Extends (if M.get? t.name = some true
      then w.knowledgeWithout t else w.knowledge)))

theorem Upholds.of_extends (h : M.Extends w.knowledge) (l : List Variable) : w.Upholds M l := by
  match l with
  | [] => trivial
  | [_] => trivial
  | t :: _ :: _ =>
    show M.Extends (if M.get? t.name = some true then w.knowledgeWithout t else w.knowledge)
    split
    · exact h.trans (Valuation.extends_without _ _)
    · exact h

theorem mem_silent_iff : t ∈ w.silent l ↔ t ∈ l ∧ w.current.peek t.name ≠ some true := by
  rw [silent, List.mem_filter, bne_iff_ne]

/-! ### What is known without some latches -/

section

variable (hg : w.graph.WellFormed)

include hg

theorem get?_knowledgeWithout (ht : t ∈ w.graph.declared) (hu : u ∈ w.graph.declared)
    (h : ¬ GoesWith t u) : (w.knowledgeWithout t).get? u.name = w.knowledge.get? u.name := by
  rw [knowledgeWithout, Valuation.get?_without,
    if_neg fun hn => h ((Graph.mem_goesWith_iff hg ht hu).mp hn)]

theorem isKnowledge_without (names : List String) :
    w.graph.IsKnowledge (w.knowledge.without names) :=
  (isKnowledge_knowledge hg).of_extends (Valuation.extends_without _ _)

theorem mem_flatMap_goesWith_iff (hT : ∀ t ∈ T, t ∈ w.graph.declared) (hu : u ∈ w.graph.declared) :
    u.name ∈ T.flatMap (fun t => t.name :: (w.graph.derivedDependentsOf t.name).map Variable.name) ↔
      ∃ t ∈ T, GoesWith t u := by
  rw [List.mem_flatMap]
  refine exists_congr fun t => and_congr_right fun ht => ?_
  exact Graph.mem_goesWith_iff hg (hT t ht) hu

end

/-- **What is set aside** for the silent latches that depend on a name: what rests on them and is
known anyway are latches that have fired. -/
theorem setsAside_knowledgeAside (hg : w.graph.IsValid) (name : String) :
    w.graph.SetsAside (w.silent (w.graph.triggersDependentOn name)) w.knowledge
      (w.knowledgeAside (w.silent (w.graph.triggersDependentOn name))) := by
  have hw := hg.wellFormed
  have hlatches : ∀ t ∈ w.silent (w.graph.triggersDependentOn name),
      t ∈ w.graph.declared ∧ t.isTriggered = true :=
    fun t ht => mem_triggersDependentOn hw (mem_silent_iff.mp ht).1
  have hmem : ∀ u ∈ w.graph.declared, _ ↔ _ := fun u hu =>
    mem_flatMap_goesWith_iff hw (fun t ht => (hlatches t ht).1) hu
  refine ⟨hlatches, ?_, Valuation.extends_without _ _, ?_, ?_⟩
  · intro t ht
    rw [knowledgeAside, Valuation.get?_without,
      if_pos ((hmem t (hlatches t ht).1).mpr ⟨t, ht, Or.inl rfl⟩)]
  · intro u hu hrests
    rw [knowledgeAside, Valuation.get?_without, if_neg]
    intro hn
    obtain ⟨t, ht, hwith⟩ := (hmem u hu).mp hn
    exact hrests (hwith.restsOn ht)
  · intro u hu hrests b hb
    rw [knowledgeAside, Valuation.get?_without] at hb
    split at hb
    · cases hb
    next hn =>
      rw [hmem u hu] at hn
      obtain ⟨t, ht, hcase⟩ := hrests
      have hd : u.dependsOn t.name = true := by
        rcases hcase with rfl | hd
        · exact absurd ⟨t, ht, Or.inl rfl⟩ hn
        · exact hd
      have hder : u.isDerived = false := by
        by_contra hder
        exact hn ⟨t, ht, Or.inr ⟨Bool.not_eq_false _ ▸ hder, hd⟩⟩
      -- It depends on the name as well, so it is one of the latches, and not a silent one.
      have htrigger := hg.mem_triggersDependentOn (mem_silent_iff.mp ht).1 hu hder hd
      have hfired : w.current.peek u.name = some true := by
        by_contra hsilent
        exact hn ⟨u, mem_silent_iff.mpr ⟨htrigger, hsilent⟩, Or.inl rfl⟩
      rw [get?_knowledge hw hu, hfired] at hb
      exact ⟨(mem_triggersDependentOn hw htrigger).2, (Option.some.inj hb).symm⟩

/-! ### One examination -/

theorem fire_run_of_known (hp : w.current.peek t.name = some true) :
    (fire t).run w = (.ok false, w) := by
  unfold fire
  rw [run_get_bind, if_pos hp]
  rfl

/-- Where the search answers, an examination fires the latch or leaves the world as it was. -/
theorem fire_run_of_solve (hp : w.current.peek t.name ≠ some true)
    (hs : w.graph.solve (w.knowledgeWithout t) = .ok (some s)) (hc : t.computes s = .ok b) :
    (fire t).run w =
      if b then (.ok true, w.setPeriod (w.current.fired w.graph t)) else (.ok false, w) := by
  have hanswer : ((fire t).run w).1 = .ok b := by
    have hresolve : w.resolve (w.knowledgeWithout t) = .ok s := by
      rw [resolve, hs]
      rfl
    unfold fire
    rw [run_get_bind, if_neg hp, hresolve, run_lift_bind, hc, run_lift_bind]
    cases b with
    | false => rfl
    | true => cases t.isPersistent <;> rfl
  rcases fire_run_cases t w with ⟨r, hr, hrun⟩ | ⟨_, hrun⟩
  · rw [hrun] at hanswer ⊢
    obtain rfl : r = .ok b := hanswer
    cases b with
    | false => rfl
    | true => exact absurd rfl hr
  · rw [hrun] at hanswer ⊢
    cases hanswer
    rfl

/-- The world is in the middle of an examination of latches that `K` knows nothing of.  `M` is the
model that `K` resolves to. -/
structure Examining (g : Graph) (T : List Variable) (K M : Valuation) (w : World) : Prop where
  attained : Attained g w
  aside : g.SetsAside T w.knowledge K
  knowledge : g.IsKnowledge K
  resolves : g.Resolves K M

section

variable (hg : g.IsValid) (hl : g.IsLocal)

include hg

theorem Examining.aside_without (h : Examining g T K M w) (ht : t ∈ T) :
    g.SetsAside T (w.knowledgeWithout t) K := by
  have hgraph := h.attained.graph_eq hg.wellFormed
  have hw : w.graph.WellFormed := hgraph ▸ hg.wellFormed
  refine h.aside.of_same h.knowledge ht fun u hu hwith => ?_
  have hdec := (h.aside.latches t ht).1
  rw [← hgraph] at hu hdec
  exact get?_knowledgeWithout hw hdec hu hwith

/-- **What is known after a firing**: the latch, nothing that is derived from it, and all the rest
as before. -/
theorem Attained.peek_fired (h : Attained g w) (ht : t ∈ g.declared) (hk : t.isTriggered = true)
    (hnew : w.current.peek t.name ≠ some true) (hu : u ∈ g.declared) :
    (u = t ∧ (w.current.fired g t).peek u.name = some true) ∨
      (GoesWith t u ∧ (w.current.fired g t).peek u.name = none) ∨
      (¬ GoesWith t u ∧ (w.current.fired g t).peek u.name = w.current.peek u.name) := by
  have hw := hg.wellFormed
  have hlatched := h.forall_period hw (Period.kept_latched hw) w.now
  have haligned := h.forall_period hw (Period.kept_aligned hw) w.now
  by_cases he : u = t
  · subst he
    exact Or.inl ⟨rfl, Period.peek_fired_self hw ht hk⟩
  · by_cases hwith : GoesWith t u
    · obtain ⟨hd, hdep⟩ := hwith.resolve_left he
      exact Or.inr (Or.inl ⟨hwith,
        hlatched.peek_fired_dependent hw haligned ht hk hnew hu hd hdep⟩)
    · refine Or.inr (Or.inr ⟨hwith, ?_⟩)
      have hapart : u.isDerived = true → u.dependsOn t.name = false := by
        intro hd
        by_contra hdep
        exact hwith (Or.inr ⟨hd, Bool.not_eq_false _ ▸ hdep⟩)
      rw [Period.peek, Period.record_fired_of_apart hw ht hu he hapart, Period.peek]

/-- **A firing goes on with the examination**, and the model upholds all that is known after it. -/
theorem Examining.fired (h : Examining g T K M w) (ht : t ∈ T)
    (hnew : w.current.peek t.name ≠ some true) (hM : M.get? t.name = some true)
    (hext : M.Extends (w.knowledgeWithout t)) :
    Examining g T K M (w.setPeriod (w.current.fired g t)) ∧
      M.Extends (w.setPeriod (w.current.fired g t)).knowledge := by
  have hw := hg.wellFormed
  obtain rfl := h.attained.graph_eq hw
  obtain ⟨hdec, hk⟩ := h.aside.latches t ht
  have hknowledge : ∀ u ∈ w.graph.declared,
      (w.setPeriod (w.current.fired w.graph t)).knowledge.get? u.name =
        (w.current.fired w.graph t).peek u.name := by
    intro u hu
    have hknown := get?_knowledge (w := w.setPeriod (w.current.fired w.graph t)) hw hu
    rwa [current_fired] at hknown
  have hfired := fun u hu => h.attained.peek_fired hg hdec hk hnew (u := u) hu
  refine ⟨⟨?_, ?_, h.knowledge, h.resolves⟩, ?_⟩
  · exact h.attained.aftermath (Relation.ReflTransGen.single (.fired t hdec hk hnew))
  · refine h.aside.of_same h.knowledge ht fun u hu hwith => ?_
    rw [hknowledge u hu, get?_knowledge hw hu]
    rcases hfired u hu with ⟨he, _⟩ | ⟨hno, _⟩ | ⟨_, hsame⟩
    · exact absurd (Or.inl he) hwith
    · exact absurd hno hwith
    · exact hsame
  · intro name b hb
    obtain ⟨u, hu, rfl⟩ := List.mem_map.mp
      (isKnowledge_knowledge (w := w.setPeriod _) hw name (Table.contains_iff.mpr ⟨b, hb⟩))
    rw [hknowledge u hu] at hb
    rcases hfired u hu with ⟨rfl, htrue⟩ | ⟨_, hnone⟩ | ⟨hwith, hsame⟩
    · rw [htrue] at hb
      rw [hM, ← hb]
    · rw [hnone] at hb
      cases hb
    · refine hext _ _ ?_
      rw [get?_knowledgeWithout hw hdec hu hwith, get?_knowledge hw hu, ← hsame, hb]

include hl

/-- **One examination comes to the model**, if that upholds what is known without the latch. -/
theorem Examining.fire_run (h : Examining g T K M w) (ht : t ∈ T)
    (hnew : w.current.peek t.name ≠ some true) (hext : M.Extends (w.knowledgeWithout t)) :
    (fire t).run w = if M.get? t.name == some true
      then (.ok true, w.setPeriod (w.current.fired g t)) else (.ok false, w) := by
  have hw := hg.wellFormed
  have haside := h.aside_without hg ht
  obtain rfl := h.attained.graph_eq hw
  have hresolves := haside.resolves hg hl (isKnowledge_without hw _) h.knowledge h.resolves hext
  obtain ⟨s, hs, hsame⟩ := hresolves.exists_solve hw hl
  obtain ⟨hdec, hk⟩ := h.aside.latches t ht
  obtain ⟨rule, persistent, hr⟩ := Variable.role_of_isTriggered hk
  obtain ⟨b, fires, hb, hrule, hfires⟩ := h.resolves.model.triggered t hdec rule persistent hr
  rw [h.aside.unknown t ht, Option.isSome_none, if_neg Bool.false_ne_true] at hfires
  have hr' : t.rule? = some rule := by rw [Variable.rule?, hr]
  have hcomputes : t.computes s = .ok b := by
    rw [Variable.computes, hr', hfires, ← hrule]
    exact (hl t hdec rule hr').1 s M fun name _ => hsame name
  rw [fire_run_of_solve hnew hs hcomputes, hb]
  cases b <;> rfl

end

/-! ### One after another -/

theorem fireAll_run_cons {w₁ : World} {fired : Bool} {others : List Variable}
    (hfire : (fire t).run w = (.ok fired, w₁)) (hrest : (fireAll l).run w₁ = (.ok others, w')) :
    (fireAll (t :: l)).run w = (.ok (if fired then t :: others else others), w') := by
  show (fire t >>= fun fired => fireAll l >>= fun others =>
    pure (if fired then t :: others else others) : Action (List Variable)).run w = _
  rw [run_bind_ok hfire, run_bind_ok hrest]
  rfl

theorem silent_fired (hg : g.WellFormed) (w : World) (ht : t ∈ g.declared)
    (hlatches : ∀ u ∈ l, u ∈ g.declared ∧ u.isTriggered = true) (hout : t ∉ l) :
    (w.setPeriod (w.current.fired g t)).silent l = w.silent l := by
  refine List.filter_congr fun u hu => ?_
  obtain ⟨hdec, hk⟩ := hlatches u hu
  rw [current_fired, Period.peek, Period.record_fired_of_ne hg ht hdec
    (Variable.isDerived_of_isTriggered hk) fun he => hout (he ▸ hu), Period.peek]

/-- **Latches examined in order** are found as in the model, and those fire that hold there. -/
theorem Examining.run (hg : g.IsValid) (hl : g.IsLocal) (h : Examining g T K M w)
    (hlatches : ∀ t ∈ l, t ∈ g.declared ∧ t.isTriggered = true) (hnodup : l.Nodup)
    (hT : ∀ t ∈ w.silent l, t ∈ T)
    (hfirst : ∀ t rest, w.silent l = t :: rest → M.Extends (w.knowledgeWithout t))
    (hupholds : w.Upholds M (w.silent l)) :
    ∃ w', (fireAll l).run w =
      (.ok ((w.silent l).filter fun t => M.get? t.name == some true), w') := by
  induction l generalizing w with
  | nil => exact ⟨w, rfl⟩
  | cons t rest ih =>
    obtain ⟨hout, hnodup⟩ := List.nodup_cons.mp hnodup
    have hlatches' := fun u hu => hlatches u (List.mem_cons_of_mem t hu)
    by_cases hp : w.current.peek t.name = some true
    · have hsilent : w.silent (t :: rest) = w.silent rest :=
        List.filter_cons_of_neg (by simp [hp])
      rw [hsilent] at hT hfirst hupholds ⊢
      obtain ⟨w', hrun⟩ := ih h hlatches' hnodup hT hfirst hupholds
      exact ⟨w', fireAll_run_cons (fire_run_of_known hp) hrun⟩
    · have hsilent : w.silent (t :: rest) = t :: w.silent rest :=
        List.filter_cons_of_pos (by simp [hp])
      rw [hsilent] at hT hfirst hupholds ⊢
      have ht := hT t List.mem_cons_self
      have hT' := fun u hu => hT u (List.mem_cons_of_mem t hu)
      have hext := hfirst t _ rfl
      have hfire := h.fire_run hg hl ht hp hext
      by_cases hM : M.get? t.name = some true
      · -- It fires, and the model upholds all that is known then.
        rw [hM, beq_self_eq_true, if_pos rfl] at hfire
        obtain ⟨hnext, hknown⟩ := h.fired hg ht hp hM hext
        have hsame := silent_fired hg.wellFormed w (h.aside.latches t ht).1 hlatches' hout
        obtain ⟨w', hrun⟩ := ih hnext hlatches' hnodup (hsame ▸ hT')
          (fun _ _ _ => hknown.trans (Valuation.extends_without _ _)) (.of_extends hknown _)
        refine ⟨w', ?_⟩
        rw [fireAll_run_cons hfire hrun, hsame, List.filter_cons_of_pos (by simp [hM])]
        rfl
      · -- It does not, and unless it was the last the model upholds all that is known already.
        have hfalse : (M.get? t.name == some true) = false := by simpa using hM
        rw [hfalse, if_neg Bool.false_ne_true] at hfire
        have hrest : (∀ u others, w.silent rest = u :: others → M.Extends (w.knowledgeWithout u)) ∧
            w.Upholds M (w.silent rest) := by
          cases hcase : w.silent rest with
          | nil => exact ⟨fun _ _ he => (nomatch he), trivial⟩
          | cons u others =>
            rw [hcase] at hupholds
            have hknown : M.Extends w.knowledge := by
              rwa [Upholds, if_neg hM] at hupholds
            exact ⟨fun _ _ _ => hknown.trans (Valuation.extends_without _ _),
              .of_extends hknown _⟩
        obtain ⟨w', hrun⟩ := ih h hlatches' hnodup hT' hrest.1 hrest.2
        refine ⟨w', ?_⟩
        rw [fireAll_run_cons hfire hrun, List.filter_cons_of_neg (by simp [hM])]
        rfl

end World

end Chronicle
