import Chronicle.Proofs.Graph.Dials
import Chronicle.Proofs.World.Lever

/-!
# Dialling

To set a dial is to write its bits one after another, from the lowest up.  On the way the bits stand
for other numbers, with new digits below and old ones above.  A write looks at what it replaces, and
if that bit is not known the knowledge has to be completed: then the least number that is left must
be in range (`Dial.Passes`).  A bit that is known is written without that, and whatever the bits
stand for in between, they are in range in the end.

So a number can be dialled exactly if every unknown bit passes when its turn comes
(`writeAll_encode_iff`).  That is always so if the maximum has all its digits set (`passes_of_full`)
or no bit is known to be set (`passes_of_unset`).  But if the high bit of a dial is known, a low bit
that is written may take it out of range, and then no further bit can be looked at (`lock_stuck`).
-/

namespace Chronicle

namespace Dial

/-- What is known of the places once the lowest `k` have the digits of `n`. -/
def dialled (f : Nat → Option Bool) (n k i : Nat) : Option Bool :=
  if i < k then some (n.testBit i) else f i

/-- When the `k`-th bit is to be replaced by that of `n`, it is known, or else what is known then
leaves the dial in range. -/
def Passes (d : Dial) (p : Valuation) (n k : Nat) : Prop :=
  d.known p k = none → d.least (dialled (d.known p) n k) ≤ d.max

instance (d : Dial) (p : Valuation) (n k : Nat) : Decidable (d.Passes p n k) :=
  inferInstanceAs (Decidable (_ → _))

variable {d : Dial} {p : Valuation} {n : Nat}

/-- Where the maximum has all its digits set, nothing is out of range. -/
theorem passes_of_full (h : d.max + 1 = 2 ^ d.width) (p : Valuation) (n k : Nat) :
    d.Passes p n k := by
  intro _
  have hlt := d.least_lt (dialled (d.known p) n k)
  omega

/-- As long as no bit is known to be set, a number in range is never exceeded on the way. -/
theorem passes_of_unset (h : ∀ i < d.width, d.known p i ≠ some true) (hn : n ≤ d.max) (k : Nat) :
    d.Passes p n k := by
  refine fun _ => Nat.le_trans (least_le ?_) hn
  intro i hi htrue
  simp only [dialled] at htrue
  split at htrue
  · exact Option.some.inj htrue
  · exact absurd htrue (h i hi)

end Dial

namespace World

variable {g : Graph} {w₀ w w' : World} {d : Dial} {v : Variable} {b : Bool} {k m n : Nat}

/-! ### One write -/

section

variable (hg : w.graph.IsValid) (hm : w.graph.OnlyMutables) (hv : v ∈ w.graph.declared)

include hg hm hv

theorem exists_peek (h : w.knowledge.get? v.name ≠ none ∨ w.current.Readable w.graph) :
    ∃ prior, w.peek v.symbol = .ok prior := by
  have hwell := hg.wellFormed
  rcases h with hknown | hread
  · obtain ⟨prior, hprior⟩ := Option.ne_none_iff_exists'.mp hknown
    rw [get?_knowledge hwell hv] at hprior
    exact ⟨prior, peek_of_current hwell hv hprior⟩
  · obtain ⟨M, _, hmodel, hpeek⟩ := exists_state_of_readable hwell hm.isLocal hread
    obtain ⟨prior, hprior⟩ := hmodel.exists_get? hv
    exact ⟨prior, (hpeek _).trans (Graph.valueIn_symbol hwell hv hprior)⟩

/-- **A reversible mutable that can be looked at is written**, and nothing else changes. -/
theorem write_run_only (hr : v.isReversible = true)
    (h : w.knowledge.get? v.name ≠ none ∨ w.current.Readable w.graph) (b : Bool) :
    ∃ w', (write v.symbol b).run w = (.ok (), w') ∧ w'.graph = w.graph ∧ w'.now = w.now ∧
      ∀ u ∈ w.graph.declared, w'.knowledge.get? u.name =
        if u.name = v.name then some b else w.knowledge.get? u.name := by
  have hwell := hg.wellFormed
  obtain ⟨prior, hp⟩ := exists_peek hg hm hv h
  have hfree : forbids v prior b = false := by
    rw [forbids, hr]
    rfl
  have hrun := write_run hwell hv (hm v hv) (hm.untriggered.triggersDependentOn hwell v.name)
    (Or.inl hr) hp b
  rw [hfree, if_neg Bool.false_ne_true] at hrun
  obtain ⟨hgraph, _, hnow⟩ := looked_eq w v prior
  refine ⟨_, hrun, hgraph, hnow, ?_⟩
  intro u hu
  split
  next he =>
    obtain rfl := hwell.eq_of_name hu hv he
    exact get?_knowledge_wrote hwell hu (hm u hu) prior b
  next hne =>
    exact sameBut_wrote hwell hv prior b u hu (fun he => hne (congrArg Variable.name he))
      (hg.dependsOn_mutable hu (hm u hu) v.name)

theorem write_run_unreadable (hn : w.knowledge.get? v.name = none)
    (h : ¬ w.current.Readable w.graph) (b : Bool) :
    (write v.symbol b).run w =
      (.error (.noCompletion w.now (w.graph.describe w.knowledge)), w) := by
  have hwell := hg.wellFormed
  have hl := hm.isLocal
  have hunsolvable : ¬ w.graph.Solvable .latched w.knowledge := by
    intro hsolvable
    have hmodel := (Graph.solvable_iff hwell hl (isKnowledge_knowledge hwell)).mp hsolvable
    exact h ((Period.readable_iff hwell hl).mpr hmodel)
  refine write_run_unseen hwell hv (hm v hv) ?_ b
  rw [get?_knowledge hwell hv] at hn
  rw [peek, hwell.require_symbol hv, ok_bind, hn, resolve_of_unsolvable hwell hl hunsolvable]
  rfl

end

/-! ### From the lowest bit up -/

/-- The lowest `k` bits of the dial have been given the digits of `n`, and nothing else has
changed. -/
structure Dialled (w₀ : World) (d : Dial) (n k : Nat) (w : World) : Prop where
  graph : w.graph = w₀.graph
  now : w.now = w₀.now
  bits : ∀ i < d.width, d.known w.knowledge i = Dial.dialled (d.known w₀.knowledge) n k i
  others : ∀ u ∈ w₀.graph.declared, (∀ i < d.width, u.name ≠ d.bitName i) →
    w.knowledge.get? u.name = w₀.knowledge.get? u.name

theorem dialled_zero (w₀ : World) (d : Dial) (n : Nat) : Dialled w₀ d n 0 w₀ where
  graph := rfl
  now := rfl
  bits := fun _ _ => (if_neg (Nat.not_lt_zero _)).symm
  others := fun _ _ _ => rfl

theorem Dialled.get?_pending (h : Dialled w₀ d n k w) (hk : k < d.width) :
    w.knowledge.get? (d.bitName k) = d.known w₀.knowledge k :=
  (h.bits k hk).trans (if_neg (Nat.lt_irrefl k))

section

variable (hg : w₀.graph.IsValid) (hm : w₀.graph.OnlyMutables) (hd : d ∈ w₀.graph.dials)

include hg hm hd

/-- Other dials are left as they were, so this one alone decides. -/
theorem Dialled.readable_iff (h : Dialled w₀ d n k w) (hread : w₀.current.Readable w₀.graph) :
    w.current.Readable w.graph ↔
      d.least (Dial.dialled (d.known w₀.knowledge) n k) ≤ d.max := by
  have hwell := hg.wellFormed
  have hleast : ∀ {w : World}, w.graph = w₀.graph → (w.current.Readable w.graph ↔
      ∀ e ∈ w₀.graph.dials, e.least (e.known w.knowledge) ≤ e.max) := by
    intro w hgraph
    rw [knowledge, hgraph, Period.readable_iff hwell hm.isLocal,
      hm.exists_isModel_iff hwell (Period.isKnowledge_currentState hwell _)]
  rw [hleast h.graph, ← Dial.least_congr h.bits]
  refine ⟨fun hall => hall d hd, ?_⟩
  intro hthis e he
  by_cases hed : e = d
  · exact hed ▸ hthis
  · refine le_of_eq_of_le (Dial.least_congr ?_) ((hleast rfl).mp hread e he)
    intro i hi
    obtain ⟨u, hu, hs, _⟩ := hg.exists_bit he hi
    have hname : u.name = e.bitName i := congrArg Symbol.name hs
    rw [Dial.known, Dial.known, ← hname]
    refine h.others u hu ?_
    intro j hj heq
    exact hed (hg.eq_of_bitName he hd hi hj (hname.symm.trans heq))

variable (hread : w₀.current.Readable w₀.graph) (h : Dialled w₀ d n k w) (hk : k < d.width)

include hread h hk

theorem Dialled.next (hpass : d.Passes w₀.knowledge n k) :
    ∃ w', (write ⟨d.bitName k, d.base + k⟩ (n.testBit k)).run w = (.ok (), w') ∧
      Dialled w₀ d n (k + 1) w' := by
  obtain ⟨v, hv, hs, hrole⟩ := hg.exists_bit hd hk
  have hname : v.name = d.bitName k := congrArg Symbol.name hs
  have hv' : v ∈ w.graph.declared := h.graph ▸ hv
  have hseen : w.knowledge.get? v.name ≠ none ∨ w.current.Readable w.graph := by
    rw [h.readable_iff hg hm hd hread, hname, h.get?_pending hk]
    by_cases hn : d.known w₀.knowledge k = none
    · exact Or.inr (hpass hn)
    · exact Or.inl hn
  have hreversible : v.isReversible = true := by
    rw [Variable.isReversible, hrole]
  obtain ⟨w', hrun, hgraph, hnow, hknown⟩ := write_run_only (h.graph ▸ hg) (h.graph ▸ hm)
     hv' hreversible hseen (n.testBit k)
  refine ⟨w', hs ▸ hrun, hgraph.trans h.graph, hnow.trans h.now, ?_, ?_⟩
  · intro i hi
    obtain ⟨u, hu, hus, _⟩ := hg.exists_bit hd hi
    have huname : u.name = d.bitName i := congrArg Symbol.name hus
    rw [Dial.known, ← huname, hknown u (h.graph ▸ hu), hname, huname]
    have hold := h.bits i hi
    rw [Dial.known] at hold
    simp only [Dial.dialled] at hold ⊢
    by_cases hik : i = k
    · subst hik
      rw [if_pos rfl, if_pos (Nat.lt_succ_self i)]
    · rw [if_neg fun he => hik (d.bitName_injective he), hold]
      by_cases hlt : i < k
      · rw [if_pos hlt, if_pos (Nat.lt_succ_of_lt hlt)]
      · rw [if_neg hlt, if_neg (by omega)]
  · intro u hu hapart
    rw [hknown u (h.graph ▸ hu), if_neg fun he => hapart k hk (he.trans hname)]
    exact h.others u hu hapart

theorem Dialled.stuck (hpass : ¬ d.Passes w₀.knowledge n k) :
    ∃ known, (write ⟨d.bitName k, d.base + k⟩ (n.testBit k)).run w =
      (.error (.noCompletion w₀.now known), w) := by
  obtain ⟨v, hv, hs, _⟩ := hg.exists_bit hd hk
  have hname : v.name = d.bitName k := congrArg Symbol.name hs
  obtain ⟨hn, hmax⟩ := Classical.not_imp.mp hpass
  have hunknown : w.knowledge.get? v.name = none := by
    rw [hname, h.get?_pending hk, hn]
  have hrun := write_run_unreadable (h.graph ▸ hg) (h.graph ▸ hm) (h.graph ▸ hv)
    hunknown (fun hr => hmax ((h.readable_iff hg hm hd hread).mp hr)) (n.testBit k)
  rw [hs, h.now] at hrun
  exact ⟨_, hrun⟩

omit hk in
/-- **From any bit on**: the rest is written if every bit passes, and otherwise dialling ends at one
that does not. -/
theorem Dialled.run (hkm : k + m = d.width) :
    (∃ w', (writeAll ((List.range' k m).map fun i =>
        (⟨d.bitName i, d.base + i⟩, n.testBit i))).run w = (.ok (), w') ∧
      Dialled w₀ d n d.width w' ∧ ∀ i, k ≤ i → i < d.width → d.Passes w₀.knowledge n i) ∨
    (∃ known w', (writeAll ((List.range' k m).map fun i =>
        (⟨d.bitName i, d.base + i⟩, n.testBit i))).run w =
          (.error (.noCompletion w₀.now known), w') ∧
      ∃ i < d.width, ¬ d.Passes w₀.knowledge n i) := by
  induction m generalizing k w with
  | zero =>
    obtain rfl : k = d.width := by omega
    exact Or.inl ⟨w, rfl, h, fun i hi hlt => absurd hlt (Nat.not_lt.mpr hi)⟩
  | succ m ih =>
    have hk : k < d.width := by omega
    rw [List.range'_succ, List.map_cons, writeAll]
    by_cases hpass : d.Passes w₀.knowledge n k
    · obtain ⟨w₁, hrun, hnext⟩ := h.next hg hm hd hread hk hpass
      rw [run_bind_ok hrun]
      rcases ih hnext (by omega) with ⟨w', hrest, hdone, hall⟩ | hstuck
      · refine Or.inl ⟨w', hrest, hdone, ?_⟩
        intro i hi hlt
        rcases Nat.eq_or_lt_of_le hi with rfl | hi
        · exact hpass
        · exact hall i hi hlt
      · exact Or.inr hstuck
    · obtain ⟨known, hrun⟩ := h.stuck hg hm hd hread hk hpass
      rw [run_bind, hrun]
      exact Or.inr ⟨known, w, rfl, k, hk, hpass⟩

end

theorem Dialled.exists_state (hg : w₀.graph.IsValid) (hm : w₀.graph.OnlyMutables)
    (hd : d ∈ w₀.graph.dials) (hread : w₀.current.Readable w₀.graph)
    (h : Dialled w₀ d n d.width w) (hn : n ≤ d.max) :
    ∃ state : Valuation, d.value state = .ok n ∧ ∀ v ∈ w₀.graph.declared, ∃ b,
      state.get? v.name = some b ∧ w.answer (.peek v.symbol) = .ok (some b) := by
  have hwell : w.graph.WellFormed := h.graph ▸ hg.wellFormed
  have hdigits : ∀ i < d.width,
      Dial.dialled (d.known w₀.knowledge) n d.width i = some (n.testBit i) := fun i hi => if_pos hi
  have hlt := Nat.lt_of_le_of_lt hn d.max_lt_two_pow_width
  have hreadable : w.current.Readable w.graph := by
    rw [h.readable_iff hg hm hd hread, Dial.least_of_testBit hlt hdigits]
    exact hn
  obtain ⟨M, hsolve, hmodel, _⟩ :=
    exists_state_of_readable hwell (h.graph ▸ hm.isLocal) hreadable
  refine ⟨M, Dial.value_of_testBit hlt ?_, ?_⟩
  · intro i hi
    exact hmodel.extends_known _ _ ((h.bits i hi).trans (hdigits i hi))
  · intro v hv
    obtain ⟨b, hb⟩ := hmodel.exists_get? (h.graph ▸ hv)
    exact ⟨b, hb, answer_peek_of_solve hwell hsolve hmodel.extends_known (h.graph ▸ hv) hb⟩

/-- **When a number can be dialled.**  Let the graph hold nothing but mutables, bits of dials among
them, and let what is known have a completion.  Then the bits of a number in range can be written
one after another exactly if every bit that is not known passes when its turn comes.  If so,
everything can be read afterwards and the dial reads as the number; if not, a write finds that what
is known by then has no completion. -/
theorem writeAll_encode_iff (hg : g.IsValid) (hm : g.OnlyMutables) (hw : Reachable g w)
    (hread : w.current.Readable g) (hd : d ∈ g.dials) (hn : n ≤ d.max) :
    ∃ pairs, d.encode n = .ok pairs ∧
      ((∃ w', (writeAll pairs).run w = (.ok (), w')) ↔
        ∀ k < d.width, d.Passes w.knowledge n k) ∧
      (∀ w', (writeAll pairs).run w = (.ok (), w') →
        ∃ state : Valuation, d.value state = .ok n ∧ ∀ v ∈ g.declared, ∃ b,
          state.get? v.name = some b ∧ w'.answer (.peek v.symbol) = .ok (some b)) ∧
      ∀ e w', (writeAll pairs).run w = (.error e, w') → ∃ known, e = .noCompletion w.now known := by
  obtain rfl := hw.graph_eq hg.wellFormed
  refine ⟨d.pattern n.testBit, Dial.encode_eq_ok_iff.mpr ⟨by omega, rfl⟩, ?_⟩
  rw [Dial.pattern, List.range_eq_range']
  rcases (dialled_zero w d n).run hg hm hd hread (Nat.zero_add d.width) with
    ⟨w', hrun, hdone, hall⟩ | ⟨known, w', hrun, i, hi, hpass⟩
  · rw [hrun]
    refine ⟨⟨fun _ k hk => hall k (Nat.zero_le k) hk, fun _ => ⟨w', rfl⟩⟩, ?_, ?_⟩
    · rintro _ ⟨⟩
      exact hdone.exists_state hg hm hd hread hn
    · rintro e _ ⟨⟩
  · rw [hrun]
    refine ⟨⟨?_, fun hall => absurd (hall i hi) hpass⟩, ?_, ?_⟩
    · rintro ⟨_, ⟨⟩⟩
    · rintro _ ⟨⟩
    · rintro e _ ⟨⟩
      exact ⟨known, rfl⟩

end World

/-! ### A lock with five positions -/

namespace Graph

/-- Its numbers go from zero to four, and it stands at the last. -/
def Lock.dial : Dial := ⟨"dial", 4, 4, 0, Nat.le_refl 4⟩

def lock : Graph := ⟨(List.range 3).map Lock.dial.bit, [Lock.dial], []⟩

theorem lock_isValid : lock.IsValid := by
  refine isValid_of_made lock [⟨"dial", .dial "dial" 4 4, []⟩] rfl (fun _ hv => hv) ?_ rfl
  intro d hd
  exact ⟨"dial", congrArg some (List.mem_singleton.mp hd).symm⟩

theorem lock_onlyMutables : lock.OnlyMutables := by decide

end Graph

namespace World

open Graph.Lock (dial)

/-- A lock whose writes observe nothing. -/
def locked : World := start Graph.lock { Settings.standard with observeOnWrite := false } none

/-- The highest bit has been seen, and it is set. -/
def lockSeen : World := locked.after [.read (dial.bit 2).symbol]

theorem locked_reachable : Reachable Graph.lock locked := ⟨_, none, [], rfl⟩

theorem lockSeen_reachable : Reachable Graph.lock lockSeen := ⟨_, none, _, rfl⟩

/-- Before anything is seen it can be set to one.  Once the highest bit is seen it cannot: with the
lowest bit set as well it would stand at five. -/
theorem writeAll_encode_iff_lock :
    ∃ pairs, dial.encode 1 = .ok pairs ∧
      (∃ w', (writeAll pairs).run locked = (.ok (), w') ∧
        ∃ state : Valuation, dial.value state = .ok 1 ∧ ∀ v ∈ Graph.lock.declared, ∃ b,
          state.get? v.name = some b ∧ w'.answer (.peek v.symbol) = .ok (some b)) ∧
      ¬ ∃ w', (writeAll pairs).run lockSeen = (.ok (), w') := by
  have hd : dial ∈ Graph.lock.dials := List.mem_singleton_self dial
  obtain ⟨pairs, hpairs, hfresh, hreads, _⟩ := writeAll_encode_iff (n := 1) Graph.lock_isValid
    Graph.lock_onlyMutables locked_reachable (by decide +kernel) hd (by decide)
  obtain ⟨pairs', hpairs', hseen, _⟩ := writeAll_encode_iff (n := 1) Graph.lock_isValid
    Graph.lock_onlyMutables lockSeen_reachable (by decide +kernel) hd (by decide)
  obtain rfl : pairs = pairs' := Except.ok.inj (hpairs.symm.trans hpairs')
  refine ⟨pairs, hpairs, ?_, ?_⟩
  · obtain ⟨w', hrun⟩ := hfresh.mpr fun k _ =>
      Dial.passes_of_unset (by decide +kernel) (by decide) k
    exact ⟨w', hrun, hreads w' hrun⟩
  · rw [hseen]
    decide +kernel

/-- Not every number in range can be written after every history. -/
theorem lock_stuck :
    ¬ ∀ (g : Graph) (w : World) (d : Dial) (n : Nat) (pairs : List (Symbol × Bool)), g.IsValid →
      g.OnlyMutables → Reachable g w → w.current.Readable g → d ∈ g.dials →
      d.encode n = .ok pairs → ((writeAll pairs).run w).1 = .ok () := by
  intro hall
  have hpairs : dial.encode 1 = .ok (dial.pattern (Nat.testBit 1)) := rfl
  have hstuck : ((writeAll (dial.pattern (Nat.testBit 1))).run lockSeen).1 =
      .error (.noCompletion 0 "\x7bdial_bit0=True, dial_bit2=True\x7d") := by
    decide +kernel
  have hok := hall Graph.lock lockSeen dial 1 _ Graph.lock_isValid Graph.lock_onlyMutables
    lockSeen_reachable (by decide +kernel) (List.mem_singleton_self dial) hpairs
  rw [hstuck] at hok
  cases hok

end World

end Chronicle
