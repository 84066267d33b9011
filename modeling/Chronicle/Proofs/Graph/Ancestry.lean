import Chronicle.Proofs.Catalogue.Link
import Chronicle.Proofs.Graph.Rounds
import Chronicle.Proofs.Graph.Valid

/-!
# Ancestry

As long as nothing is named late, a variable is younger than all that it depends on, and has it in
its closure by name (`Catalogue.Grown`).  Symbols bear this out in a list of declared variables:
serial numbers go down along direct dependencies, so there is no cycle, and a closure holds exactly
the variables that these lead to (`Ancestral.mem_closure_iff`).

Closures are compared by name when they are made, and by symbol when a graph is built.  A namesake
that is not declared may still have been mentioned somewhere; that it cannot have come into the
closure of anything declared is part of what is proved.  So a list that passes the checks for
repeated and missing declarations makes a graph, whatever the names (`build_of_checks`).
-/

namespace Chronicle

namespace Catalogue

/-- Direct dependencies are older, and the closure has them by name. -/
structure Grown (c : Catalogue) : Prop where
  older : ∀ v ∈ c.made, ∀ s ∈ v.dependencies, s.serial < v.symbol.serial
  direct : ∀ v ∈ c.made, ∀ s ∈ v.dependencies, v.dependsOn s.name = true

theorem grown_empty : empty.Grown where
  older := by intro v hv; cases hv
  direct := by intro v hv; cases hv

theorem Grown.place {c : Catalogue} (h : c.Grown) (label : String) {v : Variable}
    (ho : ∀ s ∈ v.dependencies, s.serial < v.symbol.serial)
    (hd : ∀ s ∈ v.dependencies, v.dependsOn s.name = true) : (c.place label v).Grown where
  older := by
    intro w hw
    rcases List.mem_append.mp hw with hw | hw
    · exact h.older w hw
    · exact List.mem_singleton.mp hw ▸ ho
  direct := by
    intro w hw
    rcases List.mem_append.mp hw with hw | hw
    · exact h.direct w hw
    · exact List.mem_singleton.mp hw ▸ hd

theorem Grown.place_mutable {c : Catalogue} (h : c.Grown) (label : String) {name : String}
    {default reversible : Bool} {v : Variable}
    (hv : Variable.makeMutable c.next name default reversible = .ok v) :
    (c.place label v).Grown := by
  obtain rfl := makeMutable_eq_ok hv
  exact h.place label (fun _ hs => nomatch hs) (fun _ hs => nomatch hs)

theorem Grown.place_dependent {c : Catalogue} (h : c.Grown) (hc : c.Sound) (label : String)
    {name : String} {mentions : List Mention} {operands : List Operand} {role : Role}
    {v : Variable} (ho : c.resolveAll mentions = .ok operands)
    (hv : Variable.makeDependent c.next name operands role = .ok v) :
    (c.place label v).Grown := by
  obtain ⟨vs, hvs, rfl⟩ := makeDependent_eq_ok hv
  refine h.place label ?_ ?_
  · intro s hs
    obtain ⟨w, hw, rfl⟩ := List.mem_map.mp hs
    exact hc.fresh w (mem_made_of_resolveAll ho (Variable.mem_dependenciesOf hvs hw))
  · intro s hs
    obtain ⟨w, hw, rfl⟩ := List.mem_map.mp hs
    exact Variable.dependsOn_iff.mpr (Variable.name_mem_closureOf hw (Or.inl rfl))

theorem built_grown : Built fun c => c.Sound ∧ c.Grown where
  empty := ⟨sound_empty, grown_empty⟩
  mutable := by
    rintro c label name default reversible v ⟨hs, hg⟩ hv
    exact ⟨hs.place_mutable label hv, hg.place_mutable label hv⟩
  dependent := by
    rintro c label name mentions operands role v ⟨hs, hg⟩ ho hv hm
    exact ⟨hs.place_dependent label ho hv hm, hg.place_dependent hs label ho hv⟩
  dial := by
    rintro c d label dial ⟨hs, hg⟩ _ hd
    have hplaced : ({ c with dials := c.dials.set label dial } : Catalogue).Sound ∧
        ({ c with dials := c.dials.set label dial } : Catalogue).Grown :=
      ⟨⟨hs.fresh, hs.distinct, hs.closure, hs.mutable_closure⟩, ⟨hg.older, hg.direct⟩⟩
    refine placeBits_induction (P := fun c => c.Sound ∧ c.Grown) ?_ hplaced hd
    rintro c label name default reversible v ⟨hs, hg⟩ hv
    exact ⟨hs.place_mutable label hv, hg.place_mutable label hv⟩

/-! ### Nothing late -/

theorem extend_nil (c : Catalogue) (s : Symbol) : c.extend s [] = .ok c := by
  have hsame : (fun v : Variable => if v.symbol = s then
      { v with dependencies := v.dependencies ++ [] } else v) = id := by
    funext v
    simp
  show Except.ok { c with made := c.made.map _ } = _
  rw [show c.made.map _ = c.made from hsame ▸ List.map_id c.made]

theorem extendAll_of_nil {c d : Catalogue} {late : List (Symbol × List Mention)}
    (hl : ∀ p ∈ late, p.2 = []) (h : c.extendAll late = .ok d) : d = c := by
  induction late with
  | nil =>
    cases h
    rfl
  | cons p rest ih =>
    obtain ⟨s, mentions⟩ := p
    obtain rfl : mentions = [] := hl (s, mentions) List.mem_cons_self
    rw [extendAll, extend_nil] at h
    exact ih (fun p hp => hl p (List.mem_cons_of_mem _ hp)) h

theorem late_of_makeAll {c d : Catalogue} {entries : List Entry}
    {late : List (Symbol × List Mention)} (he : ∀ e ∈ entries, e.late = [])
    (h : c.makeAll entries = .ok (d, late)) : ∀ p ∈ late, p.2 = [] := by
  induction entries generalizing c late with
  | nil =>
    cases h
    intro p hp
    cases hp
  | cons e rest ih =>
    obtain ⟨c', _, h⟩ := bind_eq_ok.mp h
    obtain ⟨⟨made, late'⟩, hrest, h⟩ := bind_eq_ok.mp h
    cases h
    intro p hp
    rcases List.mem_append.mp hp with hp | hp
    · obtain ⟨s, _, rfl⟩ := List.mem_map.mp hp
      exact he e List.mem_cons_self
    · exact ih (fun e he' => he e (List.mem_cons_of_mem _ he')) hrest p hp

/-- **Without late dependencies a catalogue is grown.** -/
theorem grown_defineAll {entries : List Entry} {c : Catalogue}
    (he : ∀ e ∈ entries, e.late = []) (h : empty.defineAll entries = .ok c) : c.Grown := by
  obtain ⟨⟨made, late⟩, hmade, h⟩ := bind_eq_ok.mp h
  obtain rfl := extendAll_of_nil (late_of_makeAll he hmade) h
  exact (built_grown.makeAll built_grown.empty hmade).2

end Catalogue

namespace Graph

open Relation (TransGen)

/-- Declared variables of a catalogue, with distinct names and all their direct dependencies. -/
structure Ancestral (c : Catalogue) (vs : List Variable) : Prop where
  sound : c.Sound
  linked : c.Linked
  grown : c.Grown
  made : ∀ v ∈ vs, v ∈ c.made
  nodup : (vs.map Variable.name).Nodup
  declared : ∀ v ∈ vs, ∀ s ∈ v.dependencies, ∃ w ∈ vs, w.symbol = s

theorem mem_of_path {vs : List Variable} {v w : Variable} (h : TransGen (DrawsOn vs) v w) :
    w ∈ vs := by
  obtain ⟨_, _, hdraws⟩ := TransGen.tail'_iff.mp h
  exact hdraws.right

namespace Ancestral

variable {c : Catalogue} {vs : List Variable} (h : Ancestral c vs) {v w : Variable} {s : Symbol}

include h

theorem acyclic : ∀ v, ¬ TransGen (DrawsOn vs) v v :=
  not_cyclic_of_lt (fun v => v.symbol.serial)
    fun v _ hdraws => h.grown.older v (h.made v hdraws.left) _ hdraws.direct

theorem mem_of_dependency (hv : v ∈ vs) (hw : w ∈ c.made) (hd : w.symbol ∈ v.dependencies) :
    w ∈ vs := by
  obtain ⟨u, hu, hs⟩ := h.declared v hv _ hd
  obtain rfl := List.inj_on_of_nodup_map h.sound.distinct (h.made u hu) hw hs
  exact hu

/-- What a closure holds is declared, and dependencies lead to it. -/
theorem exists_path (hv : v ∈ vs) (hs : s ∈ v.closure) :
    ∃ w, w.symbol = s ∧ TransGen (DrawsOn vs) v w := by
  -- Serial numbers go down on the way to what brings the symbol into the closure.
  induction hn : v.symbol.serial using Nat.strong_induction_on generalizing v with
  | _ n ih =>
    subst hn
    have hm : v.isMutable = false := by
      by_contra hm
      rw [h.sound.mutable_closure v (h.made v hv) (Bool.not_eq_false _ ▸ hm)] at hs
      cases hs
    rcases h.sound.closure v (h.made v hv) s hs with hd | ⟨x, hx, hxd, hxs⟩
    · obtain ⟨w, hw, rfl⟩ := h.declared v hv s hd
      exact ⟨w, rfl, .single ⟨hv, hw, hm, hd⟩⟩
    · have hxv := h.mem_of_dependency hv hx hxd
      have holder := h.grown.older v (h.made v hv) _ hxd
      obtain ⟨w, hws, hpath⟩ := ih _ holder hxv hxs rfl
      exact ⟨w, hws, .head ⟨hv, hxv, hm, hxd⟩ hpath⟩

/-- A declared variable is in a closure as soon as its name is: no namesake stands there for it. -/
theorem mem_closure_of_dependsOn (hv : v ∈ vs) (hw : w ∈ vs) (hd : v.dependsOn w.name = true) :
    w.symbol ∈ v.closure := by
  obtain ⟨s, hs, he⟩ := List.mem_map.mp (Variable.dependsOn_iff.mp hd)
  obtain ⟨u, rfl, hpath⟩ := h.exists_path hv hs
  obtain rfl := List.inj_on_of_nodup_map h.nodup (mem_of_path hpath) hw he
  exact hs

/-- **A closure is what direct dependencies lead to.** -/
theorem mem_closure_iff (hv : v ∈ vs) :
    s ∈ v.closure ↔ ∃ w, w.symbol = s ∧ TransGen (DrawsOn vs) v w := by
  refine ⟨h.exists_path hv, ?_⟩
  rintro ⟨w, rfl, hpath⟩
  have hdirect : ∀ {v u}, DrawsOn vs v u → u.symbol ∈ v.closure := fun hdraws =>
    h.mem_closure_of_dependsOn hdraws.left hdraws.right
      (h.grown.direct _ (h.made _ hdraws.left) _ hdraws.direct)
  induction hpath using TransGen.head_induction_on with
  | single hdraws => exact hdirect hdraws
  | head hdraws hrest ih =>
    -- The closure of what it draws on is in its own.
    obtain ⟨x, hx, hxs, hsub⟩ := h.linked.closed _ (h.made _ hdraws.left) _ (hdirect hdraws)
    obtain rfl := List.inj_on_of_nodup_map h.sound.distinct hx (h.made _ hdraws.right) hxs
    refine h.mem_closure_of_dependsOn hdraws.left (mem_of_path hrest) (hsub _ ?_)
    exact Variable.dependsOn_iff.mpr (List.mem_map_of_mem (ih hdraws.right))

theorem dependsOn_iff (hv : v ∈ vs) (hw : w ∈ vs) :
    v.dependsOn w.name = true ↔ TransGen (DrawsOn vs) v w := by
  refine ⟨?_, ?_⟩
  · intro hd
    obtain ⟨u, hus, hpath⟩ := (h.mem_closure_iff hv).mp (h.mem_closure_of_dependsOn hv hw hd)
    have hname : u.name = w.name := congrArg Symbol.name hus
    obtain rfl := List.inj_on_of_nodup_map h.nodup (mem_of_path hpath) hw hname
    exact hpath
  · intro hpath
    have hmem := (h.mem_closure_iff hv).mpr ⟨w, rfl, hpath⟩
    exact Variable.dependsOn_iff.mpr (List.mem_map_of_mem hmem)

end Ancestral

section

variable {entries : List Entry} {c : Catalogue} {operands : List Operand} {vs : List Variable}
  (hc : Catalogue.empty.defineAll entries = .ok c) (hlate : ∀ e ∈ entries, e.late = [])
  (hmade : ∀ v, .made v ∈ operands → v ∈ c.made) (hvs : declareFrom [] operands = .ok vs)
  (hdeps : checkDependencies vs vs = .ok ())

include hc hlate hmade hvs hdeps

/-- The checks for repeated and missing declarations are all that is left to do. -/
theorem ancestral_of_checks : Ancestral c vs := by
  obtain ⟨hmem, hnodup⟩ := declareFrom_spec hvs
  refine ⟨Catalogue.sound_defineAll hc, Catalogue.linked_defineAll hc,
    Catalogue.grown_defineAll hlate hc, fun v hv => hmade v (hmem v hv).1, hnodup, ?_⟩
  intro v hv s hs
  exact (declares_iff hnodup).mp (declares_of_checkDependencies hdeps hv hs)

/-- **What passes the checks makes a graph.**  There is no cycle, closures hold nothing that is not
declared, and they are exactly what direct dependencies lead to.  The dependents of a variable are
the derived and triggered ones that these lead from, each once and in evaluation order. -/
theorem build_of_checks {dials : List Dial} (hdials : checkDials vs dials = .ok ()) :
    ∃ g, build operands dials = .ok g ∧ g.declared = vs ∧ ∀ v ∈ vs,
      (∀ s ∈ v.closure, g.contains s = true) ∧
      (∀ s, s ∈ v.closure ↔ ∃ w ∈ vs, w.symbol = s ∧ TransGen (DrawsOn vs) v w) ∧
      v.symbol ∉ v.closure ∧
      (g.dependentsOf v.name).Nodup ∧ (g.dependentsOf v.name).Sublist g.order ∧
      ∀ d, d ∈ g.dependentsOf v.name ↔
        d ∈ vs ∧ d.isMutable = false ∧ TransGen (DrawsOn vs) d v := by
  have h := ancestral_of_checks hc hlate hmade hvs hdeps
  obtain ⟨order, horder, _⟩ := exists_evaluationOrder h.nodup h.declared h.acyclic
  have hperm := layers_perm (Nat.le_refl _) horder
  have hbuild : build operands dials = .ok ⟨vs, dials, order⟩ :=
    bind_eq_ok.mpr ⟨vs, hvs, bind_eq_ok.mpr ⟨(), hdeps, bind_eq_ok.mpr ⟨(), hdials,
      bind_eq_ok.mpr ⟨order, horder, rfl⟩⟩⟩⟩
  refine ⟨⟨vs, dials, order⟩, hbuild, rfl, ?_⟩
  intro v hv
  refine ⟨?_, ?_, ?_, ?_, List.filter_sublist, ?_⟩
  · intro s hs
    obtain ⟨w, hws, hpath⟩ := h.exists_path hv hs
    exact (declares_iff h.nodup).mpr ⟨w, mem_of_path hpath, hws⟩
  · intro s
    rw [h.mem_closure_iff hv]
    refine ⟨?_, ?_⟩
    · rintro ⟨w, hws, hpath⟩
      exact ⟨w, mem_of_path hpath, hws, hpath⟩
    · rintro ⟨w, _, hws, hpath⟩
      exact ⟨w, hws, hpath⟩
  · intro hs
    have hname : v.dependsOn v.name = true :=
      Variable.dependsOn_iff.mpr (List.mem_map_of_mem hs)
    exact h.acyclic v ((h.dependsOn_iff hv hv).mp hname)
  · have hnodup : order.Nodup := hperm.nodup_iff.mpr ((h.nodup.of_map _).filter _)
    exact hnodup.filter _
  · intro d
    rw [dependentsOf, List.mem_filter, hperm.mem_iff, List.mem_filter, Bool.not_eq_true', and_assoc]
    refine and_congr_right fun hd => and_congr_right fun _ => ?_
    exact h.dependsOn_iff hd hv

end

/-! ### Two taps of one name -/

namespace Bath

/-- The tap before the bath was refitted. -/
def oldTap : Variable := ⟨⟨"tap", 0⟩, .mutable false true, [], []⟩

def tap : Variable := ⟨⟨"tap", 1⟩, .mutable false true, [], []⟩

def flow : Variable :=
  ⟨⟨"flow", 2⟩, .derived (Formula.value "tap").rule, [tap.symbol], [tap.symbol]⟩

def flood : Variable :=
  ⟨⟨"flood", 3⟩, .triggered (Formula.value "flow").rule false, [flow.symbol],
    [flow.symbol, tap.symbol]⟩

def entries : List Entry :=
  [⟨"old tap", .mutable "tap" false true, []⟩, ⟨"tap", .mutable "tap" false true, []⟩,
    ⟨"flow", .derived "flow" [.label "tap"] (Formula.value "tap").rule, []⟩,
    ⟨"flood", .triggered "flood" [.label "flow"] (Formula.value "flow").rule false, []⟩]

def bath : List Variable := [flood, flow, tap]

end Bath

open Bath in
/-- Flow and flood are what the tap leads to.  With the old tap in its place nothing would be
accepted. -/
theorem build_of_checks_bath :
    (∃ g, build (bath.map .made) [] = .ok g ∧ g.dependentsOf "tap" = [flow, flood]) ∧
      (∀ d, TransGen (DrawsOn bath) d tap ↔ d = flow ∨ d = flood) ∧
      build ([flood, flow, oldTap].map .made) [] = .error (.undeclaredDependency "flow" "tap") := by
  have hbuild : build (bath.map .made) [] = .ok ⟨bath, [], [flow, flood]⟩ := rfl
  have hdefined : Catalogue.empty.defineAll entries =
      .ok ⟨[oldTap, tap, flow, flood], .ofList [("old tap", oldTap.symbol), ("tap", tap.symbol),
        ("flow", flow.symbol), ("flood", flood.symbol)], .empty, 4⟩ := rfl
  have hmade : ∀ v, .made v ∈ bath.map Operand.made → v ∈ [oldTap, tap, flow, flood] := by
    intro v hv
    simp only [bath, List.map_cons, List.map_nil, List.mem_cons, Operand.made.injEq] at hv
    rcases hv with rfl | rfl | rfl | hv
    · simp
    · simp
    · simp
    · cases hv
  have hdeclared : declareFrom [] (bath.map .made) = .ok bath := rfl
  have hdials : checkDials bath [] = .ok () := rfl
  obtain ⟨g, hg, _, h⟩ := build_of_checks hdefined (by decide) hmade hdeclared rfl hdials
  rw [hbuild] at hg
  cases hg
  obtain ⟨_, _, _, _, _, hdependents⟩ := h tap (by simp [bath])
  refine ⟨⟨_, hbuild, rfl⟩, ?_, rfl⟩
  intro d
  refine ⟨?_, ?_⟩
  · intro hpath
    obtain ⟨u, hdraws, _⟩ := TransGen.head'_iff.mp hpath
    have hmem : d ∈ [flow, flood] := (hdependents d).mpr ⟨hdraws.left, hdraws.computed, hpath⟩
    simpa using hmem
  · intro hd
    have hmem : d ∈ [flow, flood] := by simpa using hd
    exact ((hdependents d).mp hmem).2.2

end Graph

end Chronicle
