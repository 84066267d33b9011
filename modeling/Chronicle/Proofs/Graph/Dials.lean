import Chronicle.Proofs.Completion.Evaluate
import Chronicle.Proofs.Dial.Encoding
import Chronicle.Proofs.Graph.Closed
import Chronicle.Proofs.Search.Solve

/-!
# Dials of a graph

The bits of a dial take up serial numbers of their own (`Catalogue.Apart`), so in a valid graph no
two dials share a bit, whatever they are called (`IsValid.eq_of_bitName`).  Dials are the only
constraint in a graph of mutables, and so each can be looked at by itself.

The least number that known bits leave room for is read off with all others at zero (`Dial.least`).
What is known of a graph of mutables has a model exactly if no least number is out of range
(`exists_isModel_iff_least`).
-/

namespace Chronicle

namespace Catalogue

/-- Serial numbers of bits are used up, and those of different dials are different. -/
structure Apart (c : Catalogue) : Prop where
  below : ∀ label d, c.dial? label = some d → d.base + d.width ≤ c.next
  apart : ∀ label d label' d', c.dial? label = some d → c.dial? label' = some d' →
    d = d' ∨ d.base + d.width ≤ d'.base ∨ d'.base + d'.width ≤ d.base

theorem apart_empty : empty.Apart where
  below := by intro label d h; cases h
  apart := by intro label d label' d' h; cases h

theorem Apart.of_dials {c c' : Catalogue} (h : c.Apart) (hd : c'.dials = c.dials)
    (hn : c.next ≤ c'.next) : c'.Apart where
  below := by
    intro label d hlabel
    rw [dial?, hd] at hlabel
    exact Nat.le_trans (h.below label d hlabel) hn
  apart := by
    intro label d label' d' hlabel hlabel'
    rw [dial?, hd] at hlabel hlabel'
    exact h.apart label d label' d' hlabel hlabel'

theorem Apart.placeDial {c c' : Catalogue} (h : c.Apart) {label : String} {d : Dial}
    (hbase : d.base = c.next) (hd : c.placeDial label d = .ok c') : c'.Apart := by
  obtain ⟨hdials, _, hnext⟩ := made_placeDial hbase hd
  -- Under any label there is the new dial, or one that was there before it.
  have hcases : ∀ other e, c'.dial? other = some e → e = d ∨ e.base + e.width ≤ d.base ∧
      c.dial? other = some e := by
    intro other e he
    rw [dial?, hdials, Table.get?_set] at he
    split at he
    · cases he
      exact Or.inl rfl
    · exact Or.inr ⟨hbase ▸ h.below other e he, he⟩
  refine ⟨?_, ?_⟩
  · intro other e he
    rcases hcases other e he with rfl | ⟨hle, _⟩
    · omega
    · omega
  · intro l e l' e' he he'
    rcases hcases l e he with rfl | ⟨hle, hold⟩
    · rcases hcases l' e' he' with rfl | ⟨hle', _⟩
      · exact Or.inl rfl
      · exact Or.inr (Or.inr hle')
    · rcases hcases l' e' he' with rfl | ⟨_, hold'⟩
      · exact Or.inr (Or.inl hle)
      · exact h.apart l e l' e' hold hold'

/-- **Definitions keep dials apart.** -/
theorem apart_defineAll {entries : List Entry} {c : Catalogue}
    (h : empty.defineAll entries = .ok c) : c.Apart := by
  refine Kept.defineAll ⟨⟨apart_empty, ?_, ?_, ?_⟩, ?_⟩ h
  · intro c label name default reversible v hc _
    exact hc.of_dials rfl (Nat.le_succ _)
  · intro c label name mentions operands role v hc _ _ _
    exact hc.of_dials rfl (Nat.le_succ _)
  · intro c c' label d hc hbase hd
    exact hc.placeDial hbase hd
  · intro c c' s mentions hc hd
    obtain ⟨f, _, rfl⟩ := extend_eq_ok hd
    exact hc.of_dials rfl (Nat.le_refl _)

end Catalogue

/-! ### The least number -/

namespace Dial

variable {d : Dial} {f g : Nat → Option Bool} {s : Valuation} {i x : Nat}

/-- The number that the places known true stand for, all others being zero. -/
def least (d : Dial) (f : Nat → Option Bool) : Nat :=
  Nat.ofBits fun i : Fin d.width => f i == some true

theorem testBit_least (hi : i < d.width) : (d.least f).testBit i = (f i == some true) :=
  Nat.testBit_ofBits_lt _ i hi

theorem least_lt (d : Dial) (f : Nat → Option Bool) : d.least f < 2 ^ d.width :=
  Nat.ofBits_lt_two_pow _

theorem testBit_least_of_le (hi : d.width ≤ i) : (d.least f).testBit i = false :=
  Nat.testBit_ofBits_ge _ i hi

theorem least_congr (h : ∀ i < d.width, f i = g i) : d.least f = d.least g := by
  unfold least
  congr 1
  funext i
  rw [h i i.isLt]

theorem least_le (h : ∀ i < d.width, f i = some true → x.testBit i = true) : d.least f ≤ x := by
  have hand : d.least f &&& x = d.least f := by
    apply Nat.eq_of_testBit_eq
    intro i
    rw [Nat.testBit_and]
    rcases Nat.lt_or_ge i d.width with hi | hi
    · rw [testBit_least hi]
      cases hf : f i == some true with
      | false => rfl
      | true => exact h i hi (beq_iff_eq.mp hf)
    · rw [testBit_least_of_le hi]
      rfl
  exact hand ▸ Nat.and_le_right

theorem least_of_testBit (hx : x < 2 ^ d.width) (h : ∀ i < d.width, f i = some (x.testBit i)) :
    d.least f = x := by
  apply Nat.eq_of_testBit_eq
  intro i
  rcases Nat.lt_or_ge i d.width with hi | hi
  · rw [testBit_least hi, h i hi]
    cases x.testBit i <;> rfl
  · have hpow : 2 ^ d.width ≤ 2 ^ i := Nat.pow_le_pow_right Nat.two_pos hi
    rw [testBit_least_of_le hi, Nat.testBit_lt_two_pow (Nat.lt_of_lt_of_le hx hpow)]

/-- What is known of the places of a dial. -/
def known (d : Dial) (p : Valuation) (i : Nat) : Option Bool := p.get? (d.bitName i)

theorem least_le_of_inRange {p : Valuation} (hext : s.Extends p) (h : d.InRange s)
    (htotal : ∀ i < d.width, ∃ b, s.get? (d.bitName i) = some b) :
    d.least (d.known p) ≤ d.max := by
  obtain ⟨n, hn, hle⟩ := h
  obtain ⟨x, hx, hf⟩ := d.exists_testBit fun i => (s.get? (d.bitName i)).getD false
  have hbits : ∀ i < d.width, s.get? (d.bitName i) = some (x.testBit i) := by
    intro i hi
    obtain ⟨b, hb⟩ := htotal i hi
    rw [hb, ← hf i hi, hb]
    rfl
  obtain rfl : x = n := Except.ok.inj ((value_of_testBit hx hbits).symm.trans hn)
  refine Nat.le_trans (least_le ?_) hle
  intro i hi htrue
  exact Option.some.inj ((hbits i hi).symm.trans (hext _ _ htrue))

end Dial

namespace Graph

variable {g : Graph} {mode : Mode} {p : Valuation} {d d' : Dial} {i j : Nat}

theorem IsValid.exists_bit (h : g.IsValid) (hd : d ∈ g.dials) (hi : i < d.width) :
    ∃ v ∈ g.declared, v.symbol = ⟨d.bitName i, d.base + i⟩ ∧
      v.role = .mutable (d.start.testBit i) true := by
  obtain ⟨v, hv, hname, hrole⟩ := h.closed.bits d hd i hi
  have hn := h.wellFormed.nodup
  obtain ⟨_, _, _, dials, _, _, _, hbuild⟩ := h
  obtain ⟨_, _, hdials, _, rfl⟩ := build_eq_ok hbuild
  have hbit : (⟨d.bitName i, d.base + i⟩ : Symbol) ∈ d.bits :=
    List.mem_map_of_mem (List.mem_range.mpr hi)
  obtain ⟨w, hw, hs⟩ := (declares_iff hn).mp (declares_of_checkDials hdials hd hbit)
  obtain rfl := List.inj_on_of_nodup_map hn hv hw (hname.trans (congrArg Symbol.name hs).symm)
  exact ⟨v, hv, hs, hrole⟩

/-- **No two dials share a bit.** -/
theorem IsValid.eq_of_bitName (h : g.IsValid) (hd : d ∈ g.dials) (hd' : d' ∈ g.dials)
    (hi : i < d.width) (hj : j < d'.width) (he : d.bitName i = d'.bitName j) : d = d' := by
  obtain ⟨v, hv, hvs, _⟩ := h.exists_bit hd hi
  obtain ⟨w, hw, hws, _⟩ := h.exists_bit hd' hj
  -- Only one variable of the name is declared, and its serial number tells the dial.
  have hname : v.name = w.name := by
    rw [Variable.name, Variable.name, hvs, hws]
    exact he
  obtain rfl := h.wellFormed.eq_of_name hv hw hname
  have hserial : d.base + i = d'.base + j := congrArg Symbol.serial (hvs.symm.trans hws)
  obtain ⟨entries, c, _, _, hc, _, hlabels, hbuild⟩ := h
  obtain ⟨_, _, _, _, rfl⟩ := build_eq_ok hbuild
  obtain ⟨label, hlabel⟩ := hlabels d hd
  obtain ⟨label', hlabel'⟩ := hlabels d' hd'
  rcases (Catalogue.apart_defineAll hc).apart label d label' d' hlabel hlabel' with h | h | h
  · exact h
  · omega
  · omega

/-! ### Graphs of mutables -/

/-- There is nothing to derive and nothing to fire. -/
def OnlyMutables (g : Graph) : Prop := ∀ v ∈ g.declared, v.isMutable = true

instance : Decidable g.OnlyMutables :=
  inferInstanceAs (Decidable (∀ v ∈ g.declared, v.isMutable = true))

theorem OnlyMutables.isLocal (h : g.OnlyMutables) : g.IsLocal := by
  intro v hv rule hr
  have hm := h v hv
  cases hrole : v.role with
  | mutable =>
    rw [Variable.rule?, hrole] at hr
    cases hr
  | derived =>
    rw [Variable.isMutable_of_derived hrole] at hm
    cases hm
  | triggered =>
    rw [Variable.isMutable_of_triggered hrole] at hm
    cases hm

theorem OnlyMutables.untriggered (h : g.OnlyMutables) : g.Untriggered := by
  intro v hv
  cases hk : v.isTriggered with
  | false => rfl
  | true =>
    have hm := h v hv
    rw [Variable.isMutable_of_isTriggered hk] at hm
    cases hm

/-- **In a graph of mutables only dials constrain what is known**, each by itself: the least number
that is left must be in its range. -/
theorem OnlyMutables.exists_isModel_iff (h : g.OnlyMutables) (hg : g.WellFormed)
    (hp : g.IsKnowledge p) :
    (∃ M, g.IsModel mode p M) ↔ ∀ d ∈ g.dials, d.least (d.known p) ≤ d.max := by
  have hbit : ∀ d ∈ g.dials, ∀ i < d.width, d.bitName i ∈ g.names := by
    intro d hd i hi
    exact hg.bits d hd ⟨d.bitName i, d.base + i⟩ (List.mem_map_of_mem (List.mem_range.mpr hi))
  refine ⟨?_, ?_⟩
  · rintro ⟨M, hM⟩ d hd
    refine Dial.least_le_of_inRange hM.extends_known (hM.in_range d hd) ?_
    intro i hi
    exact Option.isSome_iff_exists.mp ((hM.total _).mpr (hbit d hd i hi))
  · -- Whatever is not known is false.
    intro hleast
    let M := Period.collect g fun v => some ((p.get? v.name).getD false)
    have hget : ∀ name ∈ g.names, M.get? name = some ((p.get? name).getD false) := by
      intro name hn
      obtain ⟨v, hv, rfl⟩ := List.mem_map.mp hn
      exact Period.get?_collect_name hg.nodup _ hv
    refine ⟨M, isModel_of_obeys ?_ ?_ ?_ ?_⟩
    · intro name
      refine ⟨?_, fun hn => by rw [hget name hn]; rfl⟩
      intro hsome
      obtain ⟨b, hb⟩ := Option.isSome_iff_exists.mp hsome
      obtain ⟨v, hv, rfl, _⟩ := (Period.get?_collect_eq_some_iff hg.nodup).mp hb
      exact List.mem_map_of_mem hv
    · intro name b hb
      rw [hget name (hp name (Table.contains_iff.mpr ⟨b, hb⟩)), hb]
      rfl
    · intro v hv hm
      rw [h v hv] at hm
      cases hm
    · intro d hd
      refine ⟨d.least (d.known p), Dial.value_of_testBit (d.least_lt _) ?_, hleast d hd⟩
      intro i hi
      rw [hget _ (hbit d hd i hi), Dial.testBit_least hi, Dial.known]
      rcases p.get? (d.bitName i) with _ | _ | _ <;> rfl

end Graph

end Chronicle
