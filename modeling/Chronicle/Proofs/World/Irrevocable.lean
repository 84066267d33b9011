import Chronicle.Proofs.Period.Latch
import Chronicle.Proofs.Period.Leaving
import Chronicle.Proofs.World.Coherent

/-!
# A persistent latch goes along

A persistent latch that has fired leaves its period: its value is never stale.  At the destination
its start is either known, and then it is true as well, or it is open, and then it is fixed, or the
latch has fired there too.  In each case it is known to be true after the arrival, whatever has
become of what it depends on (`Fits.peek_latch_of_leaving`).

That holds of a latch that rests on no transient one (`persistent_latch_goes_along`).  What rests on
a transient latch stays behind with it, be it persistent: in `tolled` the toll is over one tick
later, and so is the feast that it began.
-/

namespace Chronicle

namespace Arrival

variable {g : Graph} {p : Period} {known merged : Valuation} {a : Arrival} {t : Variable}

/-- **An arrival takes along a latch that has fired**, if anything of it has left. -/
theorem Fits.peek_latch_of_leaving (hg : g.WellFormed) (h : a.Fits g merged p) (hp : p.Aligned g)
    (hl : p.Latched g) (hk : g.IsKnowledge known)
    (hm : g.merge known (p.startState g) = some merged) (ht : t ∈ g.declared)
    (htrig : t.isTriggered = true) (hknown : known.get? t.name = some true) :
    (p.overridden a.overrides.entries).peek t.name = some true := by
  obtain ⟨hleft, hright⟩ := Graph.merge_extends hk hm
  rw [h.peek_overridden hg hp ht]
  cases hpeek : p.peek t.name with
  | some b =>
    have hstart : ∀ c, (p.record t.name).knownStart = some c → c = true := by
      intro c hc
      have hmerged := hright _ _ ((Period.get?_startState hg.nodup ht).trans hc)
      rw [hleft _ _ hknown] at hmerged
      exact (Option.some.inj hmerged).symm
    rw [hl.eq_true hp ht htrig hstart hpeek, Option.some_or]
  | none =>
    have hmut := Variable.isMutable_of_isTriggered htrig
    have ho := hp.canOverride_of_unknown ht (Variable.isDerived_of_isTriggered htrig) hpeek
    have hresolved : a.resolved.get? t.name = some true := by
      rw [h.get?_resolved_of_not_mutable hg ht hmut, get?_merged hg hm ht ho, hknown]
    rw [h.overrides, get?_startOverrides hg ht, if_pos ho, hresolved]
    simp [isNews, hmut, htrig]

end Arrival

namespace World

variable {g : Graph} {w : World} {time : Int} {t : Variable}

/-- **A persistent latch is irrevocable going forward.**  If the present period knows it to have
fired, so does every later period in which a journey from here arrives, whatever has happened to
what the latch depends on, provided that it depends on no transient latch or that the destination
knew it already. -/
theorem persistent_latch_goes_along (hg : g.IsValid) (hw : Reachable g w) (ht : t ∈ g.declared)
    (hpersistent : t.isPersistent = true) (hfired : w.current.peek t.name = some true)
    (hlater : w.now < time) (h : w.answer (.travel time) = .ok (some true))
    (hrests : (∀ u ∈ g.declared, t.dependsOn u.name = true → u.isTransient = false) ∨
      (w.timeline.period time).peek t.name = some true) :
    (w.next (.travel time)).now = time ∧
      (w.next (.travel time)).current.peek t.name = some true ∧
      (w.next (.travel time)).answer (.peek t.symbol) = .ok (some true) := by
  have hwell := hg.wellFormed
  have htrig := Variable.isTriggered_of_isPersistent hpersistent
  obtain rfl := hw.graph_eq hwell
  obtain ⟨merged, arrival, hmerge, hfind, hnext⟩ := arrived_of_answer hwell hlater h
  have hfits := Arrival.fits_of_find hfind
  have haligned := hw.forall_period hwell (Period.kept_aligned hwell) time
  have hpeek : (w.next (.travel time)).current.peek t.name = some true := by
    rw [hnext, current_arrived]
    rcases hrests with hapart | hknown
    · have hcarries : w.graph.carries t = true := by
        refine Graph.carries_iff.mpr ⟨?_, hapart⟩
        rw [Variable.isTransient, hpersistent, Bool.not_true, Bool.and_false]
      have hfresh : w.current.Fresh w.graph :=
        hw.forall_period hwell (Period.kept_fresh hwell) w.now
      have hleaving : w.leaving.get? t.name = some true := by
        rw [leaving, Period.leaving_of_latch hwell hfresh ht htrig hcarries,
          Period.get?_currentState hwell.nodup ht]
        exact hfired
      exact hfits.peek_latch_of_leaving hwell haligned
        (hw.forall_period hwell (Period.kept_latched hwell) time)
        (Period.isKnowledge_endState hwell _) hmerge ht htrig hleaving
    · exact Period.peek_overridden (hfits.accepts hwell) hknown
  have hgraph : (w.next (.travel time)).graph = w.graph := (hw.next _).graph_eq hwell
  refine ⟨?_, hpeek, ?_⟩
  · rw [hnext]
    rfl
  · rw [(answer_peek _ _).1, peek_of_current (hgraph ▸ hwell) (hgraph ▸ ht) hpeek]
    rfl

end World

/-! ### A feast that a toll began -/

namespace Graph

namespace Belfry

def rope : Variable := ⟨⟨"rope", 0⟩, .mutable false true, [], []⟩

/-- Sounds when the rope is pulled, and dies away. -/
def toll : Variable :=
  ⟨⟨"toll", 1⟩, .triggered (Formula.value "rope").rule false, [rope.symbol], [rope.symbol]⟩

/-- Opens when the rope is pulled, and stays. -/
def crack : Variable :=
  ⟨⟨"crack", 2⟩, .triggered (Formula.value "rope").rule true, [rope.symbol], [rope.symbol]⟩

/-- Begins with the toll. -/
def feast : Variable :=
  ⟨⟨"feast", 3⟩, .triggered (Formula.value "toll").rule true, [toll.symbol],
    [toll.symbol, rope.symbol]⟩

def entries : List Entry :=
  [⟨"rope", .mutable "rope" false true, []⟩,
    ⟨"toll", .triggered "toll" [.label "rope"] (Formula.value "rope").rule false, []⟩,
    ⟨"crack", .triggered "crack" [.label "rope"] (Formula.value "rope").rule true, []⟩,
    ⟨"feast", .triggered "feast" [.label "toll"] (Formula.value "toll").rule true, []⟩]

end Belfry

open Belfry in
def belfry : Graph := ⟨[rope, toll, crack, feast], [], [toll, crack, feast]⟩

theorem belfry_isValid : belfry.IsValid :=
  isValid_of_made belfry Belfry.entries rfl (fun _ hv => hv) (fun _ hd => nomatch hd) rfl

end Graph

namespace World

/-- The rope was pulled and let go. -/
def tolled : World :=
  (start Graph.belfry .standard none).after
    [.write Graph.Belfry.rope.symbol true, .write Graph.Belfry.rope.symbol false]

theorem tolled_reachable : Reachable Graph.belfry tolled := ⟨.standard, none, _, rfl⟩

/-- The crack in the bell stays. -/
theorem persistent_latch_goes_along_tolled :
    tolled.now < 1 ∧ tolled.answer (.travel 1) = .ok (some true) ∧
      (tolled.next (.travel 1)).answer (.peek Graph.Belfry.crack.symbol) = .ok (some true) := by
  have hlater : tolled.now < 1 := by decide +kernel
  have hanswer : tolled.answer (.travel 1) = .ok (some true) := by decide +kernel
  obtain ⟨_, _, hreads⟩ := persistent_latch_goes_along (t := Graph.Belfry.crack)
    Graph.belfry_isValid tolled_reachable (by simp [Graph.belfry]) rfl (by decide +kernel) hlater
    hanswer (Or.inl (by decide +kernel))
  exact ⟨hlater, hanswer, hreads⟩

/-- A persistent latch that rests on a transient one can be lost on the way. -/
theorem tolled_feast_ends :
    ¬ ∀ (g : Graph) (w : World) (t : Variable) (time : Int), g.IsValid → Reachable g w →
      t ∈ g.declared → t.isPersistent = true → w.current.peek t.name = some true →
      w.now < time → w.answer (.travel time) = .ok (some true) →
      (w.next (.travel time)).answer (.peek t.symbol) = .ok (some true) := by
  intro hall
  have hstays := hall Graph.belfry tolled Graph.Belfry.feast 1 Graph.belfry_isValid tolled_reachable
    (by simp [Graph.belfry]) rfl (by decide +kernel) (by decide +kernel) (by decide +kernel)
  have hends : (tolled.next (.travel 1)).answer (.peek Graph.Belfry.feast.symbol) =
      .ok (some false) := by
    decide +kernel
  rw [hends] at hstays
  cases hstays

end World

end Chronicle
