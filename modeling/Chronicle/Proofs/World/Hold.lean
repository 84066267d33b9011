import Chronicle.Proofs.World.Examine

/-!
# Latches that hold fire

A write puts in question the latches that depend on it and are not known to have fired.  Those
should fire that hold in the model of all that is known without them.  They do, and nothing else
does, if that model upholds what was seen of them before (`latches_that_hold_fire`), so whenever
there is only one of them, or nothing is known of any.

But each of them is examined with what was seen of the others, and so a latch that was seen silent
and ought to fire with another one stands in the way of that (`fogSeen_refuses`).
-/

namespace Chronicle

namespace World

variable {g : Graph} {w w' : World} {v : Variable} {prior : Bool}

def questioned (w : World) (v : Variable) : List Variable :=
  w.silent (w.graph.triggersDependentOn v.name)

theorem settle_run (hm : v.isMutable = true) (hr : v.isReversible = true)
    (hp : w.peek v.symbol = .ok prior) (b : Bool) :
    (settle v b).run w = (.ok (), (w.looked v prior).wrote v b) := by
  obtain ⟨hgraph, hsettings, _⟩ := looked_eq w v prior
  unfold settle
  rw [run_get_bind, hm]
  simp only [Bool.not_true, Bool.false_eq_true, if_false]
  rw [look_run hp, hr]
  simp only [Bool.not_true, Bool.false_and, Bool.false_eq_true, if_false]
  rw [← hgraph, ← hsettings, wrote_run v b]
  rfl

section

variable (hg : g.IsValid) (hl : g.IsLocal)

include hg hl

/-- **An examination of all that is in question** fires what holds in the model. -/
theorem Attained.fireAll_run {M : Valuation} (hw : Attained g w)
    (hsolve : g.solve (w.knowledgeAside (w.questioned v)) = .ok (some M))
    (hupholds : w.Upholds M (w.questioned v)) :
    ∃ w', (fireAll (g.triggersDependentOn v.name)).run w =
      (.ok ((w.questioned v).filter fun t => M.get? t.name == some true), w') := by
  have hwell := hg.wellFormed
  obtain rfl := hw.graph_eq hwell
  have haside := setsAside_knowledgeAside hg v.name
  have hknowledge : w.graph.IsKnowledge (w.knowledgeAside (w.questioned v)) :=
    isKnowledge_without hwell _
  have hresolves := Graph.resolves_of_solve hwell hl hknowledge hsolve
  have hexamining : Examining w.graph (w.questioned v) (w.knowledgeAside (w.questioned v)) M w :=
    ⟨hw, haside, hknowledge, hresolves⟩
  have hnodup : (w.graph.triggersDependentOn v.name).Nodup :=
    (hwell.order_nodup.of_map).sublist (List.filter_sublist.trans List.filter_sublist)
  refine hexamining.run hg hl (fun t ht => mem_triggersDependentOn hwell ht) hnodup
    (fun t ht => ht) ?_ hupholds
  intro t rest hfirst
  have hquestioned : w.questioned v = t :: rest := hfirst
  cases rest with
  | nil =>
    -- It is the only one, so the model is one of all that is known without it.
    have hsame : w.knowledgeAside (w.questioned v) = w.knowledgeWithout t := by
      rw [hquestioned, knowledgeAside, List.flatMap_singleton, knowledgeWithout]
    rw [← hsame]
    exact hresolves.model.extends_known
  | cons u others =>
    rw [hquestioned] at hupholds
    have hext : M.Extends (if M.get? t.name = some true then w.knowledgeWithout t
        else w.knowledge) := hupholds
    split at hext
    · exact hext
    · exact hext.trans (Valuation.extends_without _ _)

/-- **A write fires exactly the latches that hold.**  Let the knowledge of the present have a
completion, and a reversible mutable be written.  If what is then known without the latches in
question resolves to a model, which upholds what was seen of them, then the write returns, and those
of the latches fire that are true in the model, in the order of examination. -/
theorem latches_that_hold_fire (hw : Reachable g w) (hread : w.current.Readable g)
    (hv : v ∈ g.declared) (hm : v.isMutable = true) (hr : v.isReversible = true) (b : Bool) :
    ∃ prior w₁, w.peek v.symbol = .ok prior ∧ w₁ = (w.looked v prior).wrote v b ∧
      ∀ M, g.solve (w₁.knowledgeAside (w₁.questioned v)) = .ok (some M) →
        w₁.Upholds M (w₁.questioned v) →
        w.answer (.write v.symbol b) = .ok none ∧
          (w.firings (.write v.symbol b)).map Firing.trigger =
            (w₁.questioned v).filter fun t => M.get? t.name == some true := by
  have hwell := hg.wellFormed
  obtain rfl := hw.graph_eq hwell
  obtain ⟨S, _, hS, hpeek⟩ := exists_state_of_readable hwell hl hread
  obtain ⟨prior, hprior⟩ := hS.exists_get? hv
  have hp : w.peek v.symbol = .ok prior :=
    (hpeek v.symbol).trans (Graph.valueIn_symbol hwell hv hprior)
  refine ⟨prior, _, hp, rfl, ?_⟩
  intro M hsolve hupholds
  have hattained := hw.attained.wrote hwell hv hm hp b
  obtain ⟨w₂, hfire⟩ := hattained.fireAll_run hg hl hsolve hupholds
  have hrequire := hwell.require_symbol hv
  have hsettle := settle_run hm hr hp b
  refine ⟨?_, ?_⟩
  · have hgraph := hattained.graph_eq hwell
    have hnext := hattained.aftermath ((stays_fireAll (hgraph ▸ hwell) fun t ht =>
      hgraph ▸ mem_triggersDependentOn hwell ht).path hfire)
    obtain ⟨w₃, hreconcile⟩ := hnext.exists_reconcileFirings hg hl _
    have hrun : (write v.symbol b).run w = (.ok (), w₃) := by
      rw [write_run_of_require hrequire, run_bind_ok hsettle, run_bind_ok hfire]
      exact hreconcile
    exact (answer_write hrun).1
  · rw [firings, hrequire]
    dsimp only
    rw [hsettle]
    exact map_trigger_firingsOf hfire

end

end World

/-! ### A flag and a horn on the pier -/

namespace Graph

namespace Pier

def wind : Variable := ⟨⟨"wind", 0⟩, .mutable false true, [], []⟩

def fog : Variable := ⟨⟨"fog", 1⟩, .mutable false true, [], []⟩

/-- Unfurls in the wind. -/
def flag : Variable :=
  ⟨⟨"flag", 2⟩, .triggered (Formula.value "wind").rule false, [wind.symbol], [wind.symbol]⟩

def sounds : Formula := .all [.value "wind", .value "fog"]

/-- Sounds when the wind comes up in the fog. -/
def horn : Variable :=
  ⟨⟨"horn", 3⟩, .triggered sounds.rule false, [wind.symbol, fog.symbol], [wind.symbol, fog.symbol]⟩

def entries : List Entry :=
  [⟨"wind", .mutable "wind" false true, []⟩, ⟨"fog", .mutable "fog" false true, []⟩,
    ⟨"flag", .triggered "flag" [.label "wind"] (Formula.value "wind").rule false, []⟩,
    ⟨"horn", .triggered "horn" [.label "wind", .label "fog"] sounds.rule false, []⟩]

end Pier

open Pier in
def pier : Graph := ⟨[wind, fog, flag, horn], [], [flag, horn]⟩

theorem pier_isValid : pier.IsValid :=
  isValid_of_made pier Pier.entries rfl (fun _ hv => hv) (fun _ hd => nomatch hd) rfl

theorem pier_isLocal : pier.IsLocal := by
  apply isLocal_of_reads
  intro v hv rule hr
  simp only [pier, List.mem_cons, List.not_mem_nil, or_false] at hv
  rcases hv with rfl | rfl | rfl | rfl
  · cases hr
  · cases hr
  · cases hr
    exact ⟨.value "wind", rfl, by decide⟩
  · cases hr
    exact ⟨Pier.sounds, rfl, by decide⟩

end Graph

namespace World

/-- It is calm and clear, and nothing has been heard. -/
def calmSeen : World :=
  (start Graph.pier .standard none).after
    [.read Graph.Pier.flag.symbol, .read Graph.Pier.horn.symbol]

theorem calmSeen_reachable : Reachable Graph.pier calmSeen := ⟨.standard, none, _, rfl⟩

/-- When the wind comes up the flag unfurls and the horn stays silent, as both should. -/
theorem latches_that_hold_fire_calmSeen :
    calmSeen.answer (.write Graph.Pier.wind.symbol true) = .ok none ∧
      ((calmSeen.firings (.write Graph.Pier.wind.symbol true)).map Firing.trigger).map
        Variable.name = ["flag"] := by
  obtain ⟨prior, w₁, hp, rfl, hfire⟩ := latches_that_hold_fire (v := Graph.Pier.wind)
    Graph.pier_isValid Graph.pier_isLocal calmSeen_reachable (by decide +kernel)
    (by simp [Graph.pier]) rfl rfl true
  have hprior : calmSeen.peek Graph.Pier.wind.symbol = .ok false := by decide +kernel
  obtain rfl : false = prior := Except.ok.inj (hprior.symm.trans hp)
  have hsolve : Graph.pier.solve (((calmSeen.looked Graph.Pier.wind false).wrote Graph.Pier.wind
      true).knowledgeAside (((calmSeen.looked Graph.Pier.wind false).wrote Graph.Pier.wind
        true).questioned Graph.Pier.wind)) = .ok (some (.ofList
          [("wind", true), ("fog", false), ("flag", true), ("horn", false)])) := by
    decide +kernel
  obtain ⟨hanswer, hfirings⟩ := hfire _ hsolve (by decide +kernel)
  refine ⟨hanswer, ?_⟩
  rw [hfirings]
  decide +kernel

/-- There is fog, and nothing has been heard. -/
def fogSeen : World :=
  (start Graph.pier .standard none).after [.write Graph.Pier.fog.symbol true,
    .read Graph.Pier.flag.symbol, .read Graph.Pier.horn.symbol]

theorem fogSeen_reachable : Reachable Graph.pier fogSeen := ⟨.standard, none, _, rfl⟩

/-- When the wind comes up in the fog the flag should unfurl and the horn sound.  But the flag is
examined with the horn still silent, and then nothing fits the wind. -/
theorem fogSeen_refuses :
    ¬ ∀ (g : Graph) (w : World) (v : Variable) (b : Bool), g.IsValid → g.IsLocal →
      Reachable g w → w.current.Readable g → v ∈ g.declared → v.isMutable = true →
      v.isReversible = true →
      ∃ prior w₁, w.peek v.symbol = .ok prior ∧ w₁ = (w.looked v prior).wrote v b ∧
        ∀ M, g.solve (w₁.knowledgeAside (w₁.questioned v)) = .ok (some M) →
          w.answer (.write v.symbol b) = .ok none ∧
            (w.firings (.write v.symbol b)).map Firing.trigger =
              (w₁.questioned v).filter fun t => M.get? t.name == some true := by
  intro hall
  obtain ⟨prior, w₁, hp, rfl, hfire⟩ := hall Graph.pier fogSeen Graph.Pier.wind true
    Graph.pier_isValid Graph.pier_isLocal fogSeen_reachable (by decide +kernel)
    (by simp [Graph.pier]) rfl rfl
  have hprior : fogSeen.peek Graph.Pier.wind.symbol = .ok false := by decide +kernel
  obtain rfl : false = prior := Except.ok.inj (hprior.symm.trans hp)
  have hsolve : Graph.pier.solve (((fogSeen.looked Graph.Pier.wind false).wrote Graph.Pier.wind
      true).knowledgeAside (((fogSeen.looked Graph.Pier.wind false).wrote Graph.Pier.wind
        true).questioned Graph.Pier.wind)) = .ok (some (.ofList
          [("wind", true), ("fog", true), ("flag", true), ("horn", true)])) := by
    decide +kernel
  obtain ⟨hanswer, _⟩ := hfire _ hsolve
  have hrefused : fogSeen.answer (.write Graph.Pier.wind.symbol true) =
      .error (.noCompletion 0 "\x7bwind=True, fog=True, horn=False\x7d") := by
    decide +kernel
  rw [hrefused] at hanswer
  cases hanswer

end World

end Chronicle
