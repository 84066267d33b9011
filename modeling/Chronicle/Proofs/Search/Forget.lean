import Chronicle.Proofs.Completion.Observe
import Chronicle.Proofs.Search.Solve

/-!
# Forgetting

Less knowledge has more models: what is forgotten of a mutable or of a derived variable was only a
condition on them.  The exception is a latch recorded true.  In `latched` mode the record stands in
for its rule; once it is forgotten the latch has the value of the rule again, and so has what
depends on it.  There is no other exception (`forgetting_keeps_consistent`): as long as no such
record is forgotten every model stays a model (`IsModel.transfer`), and the search finds a
consistent state wherever there is a model (`exists_findConsistent_iff`).
-/

namespace Chronicle.Graph

variable {g : Graph} {mode : Mode} {p q : Valuation}

section

variable (hg : g.WellFormed) (hl : g.IsLocal)

include hg hl

theorem exists_findConsistent_of_extends (hq : g.IsKnowledge q) (hpq : q.Extends p)
    (hlatch : mode = .latched → ∀ t ∈ g.declared, t.isTriggered = true →
      q.get? t.name = some true → p.contains t.name = true)
    (h : ∃ r, g.findConsistent mode q = .ok (some r)) :
    ∃ r, g.findConsistent mode p = .ok (some r) := by
  obtain ⟨M, hM⟩ := (exists_findConsistent_iff hg hl hq).mp h
  refine (exists_findConsistent_iff hg hl (hq.of_extends hpq)).mpr ⟨M, hM.transfer ?_ hlatch⟩
  exact fun name b hb => hM.extends_known name b (hpq name b hb)

end

/-- **To forget something contradicts nothing, unless it is that a latch was true.**  Where the
search finds a consistent state, it finds one for all that says less: in `exact` mode always, and in
`latched` mode as long as every latch that is known to be true is known still. -/
theorem forgetting_keeps_consistent (hg : g.IsValid) (hl : g.IsLocal) (hq : g.IsKnowledge q)
    (hpq : q.Extends p) :
    ((∃ r, g.findConsistent .exact q = .ok (some r)) →
      ∃ r, g.findConsistent .exact p = .ok (some r)) ∧
    ((∀ t ∈ g.declared, t.isTriggered = true → q.get? t.name = some true →
        p.contains t.name = true) →
      (∃ r, g.findConsistent .latched q = .ok (some r)) →
      ∃ r, g.findConsistent .latched p = .ok (some r)) := by
  refine ⟨?_, ?_⟩
  · exact exists_findConsistent_of_extends hg.wellFormed hl hq hpq (fun hmode => nomatch hmode)
  · intro hlatch
    exact exists_findConsistent_of_extends hg.wellFormed hl hq hpq fun _ => hlatch

/-- Whether the kiln is warm may be forgotten, and that it is ready, as long as it is known to have
been baked. -/
theorem forgetting_keeps_consistent_kiln :
    (∃ r, kiln.findConsistent .latched
      (.ofList [("baked", true), ("warm", true), ("ready", true)]) = .ok (some r)) ∧
    ∃ r, kiln.findConsistent .latched (.ofList [("baked", true)]) = .ok (some r) := by
  have hmore : ∃ r, kiln.findConsistent .latched
      (.ofList [("baked", true), ("warm", true), ("ready", true)]) = .ok (some r) :=
    ⟨.ofList [("baked", true), ("warm", true), ("ready", true), ("heat_bit0", true)],
      by decide +kernel⟩
  obtain ⟨_, hlatched⟩ := forgetting_keeps_consistent (p := .ofList [("baked", true)])
    (q := .ofList [("baked", true), ("warm", true), ("ready", true)])
    kiln_isValid kiln_isLocal (by decide) (by decide)
  exact ⟨hmore, hlatched (by decide) hmore⟩

/-- The record that a latch was true cannot be missed: to be ready without it the kiln would have to
be hot, so that the latch fires, and not hot. -/
example : kiln.findConsistent .latched (.ofList [("baked", true), ("ready", true)]) =
      .ok (some (.ofList [("baked", true), ("ready", true)])) ∧
    kiln.findConsistent .latched (.ofList [("ready", true)]) = .ok none := by
  decide +kernel

end Chronicle.Graph
