import Chronicle.Proofs.Period.Span
import Chronicle.Proofs.Search.Learned

/-!
# Where the value of a mutable makes no difference to the search

Without latches and dials, what is known is consistent if the mutables as they are known, or else at
their defaults, evaluate to it.  So a known value that depends on a mutable decides on flips only if
it depends on an unknown one as well.  If there is no such value (`Fenced`), then the same sets of
flips of the others are consistent whatever is known of the mutable and above it
(`Consistent.flipAll_sameBut`).

To pin it, or to flip it or not, makes no difference then, and what is the least set of flips with
it is least without (`LeastFlips.sameBut`): a set that comes before what is left of another one can
be completed to one that comes before the whole (`exists_earlier_of_filter`).  So every other
mutable has in the solution the value that it had (`solve_sameBut`).
-/

namespace Chronicle.Graph

open Search (flipAll)

variable {g : Graph} {p q s t M M' X : Valuation} {u v : Variable} {b : Bool}
  {F G H U : List Variable}

/-- Whatever is known and depends on the mutable is known down to its mutables. -/
def Fenced (g : Graph) (p : Valuation) (v : Variable) : Prop :=
  ∀ d ∈ g.declared, d.dependsOn v.name = true → p.get? d.name ≠ none →
    ∀ m ∈ g.declared, m.isMutable = true → d.dependsOn m.name = true → p.get? m.name ≠ none

/-- Elsewhere than in the mutable and above it both know the same. -/
def SameBut (g : Graph) (v : Variable) (p q : Valuation) : Prop :=
  ∀ u ∈ g.declared, u ≠ v → u.dependsOn v.name = false → q.get? u.name = p.get? u.name

theorem SameBut.symm (h : g.SameBut v p q) : g.SameBut v q p :=
  fun u hu hne hd => (h u hu hne hd).symm

/-! ### Sets of flips without some of their members -/

/-- **What comes before a part of a set of flips** is the part of one that comes before it all. -/
theorem exists_earlier_of_filter {keep : Variable → Bool} (hU : U.Pairwise g.Precedes)
    (hF : F.Sublist U) (hG : G.Sublist (U.filter keep)) (h : g.Earlier G (F.filter keep)) :
    ∃ H, H.Sublist U ∧ H.filter keep = G ∧ g.Earlier H F := by
  induction U generalizing F G with
  | nil =>
    rw [List.sublist_nil.mp hF] at h
    cases h
  | cons x rest ih =>
    obtain ⟨hx, hrest⟩ := List.pairwise_cons.mp hU
    cases hk : keep x with
    | false =>
      -- It does not count, so what comes before takes it along with the whole.
      have hskip : ∀ l : List Variable, (x :: l).filter keep = l.filter keep :=
        fun l => List.filter_cons_of_neg (by rw [hk]; exact Bool.false_ne_true)
      rw [hskip] at hG
      rcases List.sublist_cons_iff.mp hF with hsub | ⟨F, rfl, hsub⟩
      · obtain ⟨H, hH, hpart, hlt⟩ := ih hrest hsub hG h
        exact ⟨H, hH.cons x, hpart, hlt⟩
      · rw [hskip] at h
        obtain ⟨H, hH, hpart, hlt⟩ := ih hrest hsub hG h
        exact ⟨x :: H, hH.cons_cons x, by rw [hskip, hpart], .cons hlt⟩
    | true =>
      have hpart : ∀ {l : List Variable}, l.Sublist (rest.filter keep) → l.filter keep = l := by
        intro l hl
        exact List.filter_eq_self.mpr fun y hy => (List.mem_filter.mp (hl.subset hy)).2
      rw [List.filter_cons_of_pos hk] at hG
      rcases List.sublist_cons_iff.mp hF with hsub | ⟨F, rfl, hsub⟩
      · rcases List.sublist_cons_iff.mp hG with hG' | ⟨G, rfl, hG'⟩
        · obtain ⟨H, hH, hsame, hlt⟩ := ih hrest hsub hG' h
          exact ⟨H, hH.cons x, hsame, hlt⟩
        · refine ⟨x :: G, (hG'.trans List.filter_sublist).cons_cons x, ?_, ?_⟩
          · rw [List.filter_cons_of_pos hk, hpart hG']
          · cases F with
            | nil => cases h
            | cons y F => exact .rel (hx y (hsub.subset List.mem_cons_self))
      · rw [List.filter_cons_of_pos hk] at h
        rcases List.sublist_cons_iff.mp hG with hG' | ⟨G, rfl, hG'⟩
        · cases G with
          | nil => exact ⟨[], List.nil_sublist _, rfl, .nil⟩
          | cons y G =>
            -- A set that leaves out the first candidate does not come before one that has it.
            have hxy := hx y (List.mem_of_mem_filter (hG'.subset List.mem_cons_self))
            cases h with
            | rel hyx => exact absurd hyx hxy.asymm
            | cons _ => exact absurd hxy (Nat.lt_irrefl _)
        · cases h with
          | rel hxx => exact absurd hxx (Nat.lt_irrefl _)
          | cons h =>
            obtain ⟨H, hH, hsame, hlt⟩ := ih hrest hsub hG' h
            exact ⟨x :: H, hH.cons_cons x, by rw [List.filter_cons_of_pos hk, hsame], .cons hlt⟩

/-! ### Consistency by values of the mutables -/

/-- The mutables as they are known, or else at their defaults. -/
def assumed (g : Graph) (p : Valuation) : Valuation :=
  Period.collect g fun m => if m.isMutable then some ((p.get? m.name).getD m.default) else none

theorem get?_assumed (hg : g.WellFormed) (p : Valuation) (hu : u ∈ g.declared) :
    (g.assumed p).get? u.name =
      if u.isMutable then some ((p.get? u.name).getD u.default) else none :=
  Period.get?_collect_name hg.nodup _ hu

theorem contains_assumed_iff (hg : g.WellFormed) (p : Valuation) (name : String) :
    (g.assumed p).contains name = true ↔ name ∈ g.mutables.map Variable.name := by
  rw [Table.contains_iff]
  refine ⟨?_, ?_⟩
  · rintro ⟨b, hb⟩
    obtain ⟨m, hm, rfl, hvalue⟩ := (Period.get?_collect_eq_some_iff hg.nodup).mp hb
    refine (hg.name_mem_mutables_iff hm).mpr ?_
    by_contra hk
    rw [if_neg hk] at hvalue
    cases hvalue
  · intro hn
    obtain ⟨m, hm, rfl⟩ := List.mem_map.mp hn
    obtain ⟨hmem, hk⟩ := List.mem_filter.mp hm
    exact ⟨_, (get?_assumed hg p hmem).trans (if_pos hk)⟩

theorem SameBut.get?_flipAll (hg : g.IsValid) (h : g.SameBut v p q)
    (hF : F.Sublist (g.unknownMutables p)) (hG : G.Sublist (g.unknownMutables q))
    (hflips : ∀ m ∈ g.declared, m ≠ v → (m ∈ G ↔ m ∈ F)) (hu : u ∈ g.declared)
    (hm : u.isMutable = true) (hne : u ≠ v) :
    (flipAll q G).get? u.name = (flipAll p F).get? u.name := by
  have hwell := hg.wellFormed
  by_cases hin : u ∈ F
  · have hin' := (hflips u hu hne).mpr hin
    rw [Search.get?_flipAll_of_mem (nodup_of_sublist_unknownMutables hwell hF) p hin,
      Search.get?_flipAll_of_mem (nodup_of_sublist_unknownMutables hwell hG) q hin']
  · have hout := fun hin' => hin ((hflips u hu hne).mp hin')
    rw [get?_flipAll_of_unflipped hwell hF hu hin, get?_flipAll_of_unflipped hwell hG hu hout,
      h u hu hne (hg.dependsOn_mutable hu hm v.name)]

section

variable (hg : g.IsValid) (hl : g.IsLocal) (hd : g.dials = [])

include hg hl hd

theorem exists_evaluation (p : Valuation) :
    ∃ E, g.IsModel .latched .empty E ∧ ∀ m ∈ g.declared, m.isMutable = true →
      E.get? m.name = some ((p.get? m.name).getD m.default) := by
  have hwell := hg.wellFormed
  obtain ⟨E, _, hext, hmodel⟩ := evaluateOn_isModel hwell hg.closed hl
    (contains_assumed_iff hwell p) (by rw [hd]; exact nofun)
  refine ⟨E, hmodel, ?_⟩
  intro m hm hk
  exact hext _ _ ((get?_assumed hwell p hm).trans (if_pos hk))

variable (hu : g.Untriggered)

include hu

/-- **Consistency goes over** to knowledge with the same mutables but one, if what is known above
that one is grounded in models with these mutables. -/
theorem Consistent.transfer (hp : g.IsKnowledge p) (hq : g.IsKnowledge q)
    (h : g.Consistent .latched p)
    (hmutable : ∀ m ∈ g.declared, m.isMutable = true → m ≠ v →
      (q.get? m.name).getD m.default = (p.get? m.name).getD m.default)
    (hsame : ∀ d ∈ g.declared, d.isMutable = false → d.dependsOn v.name = false →
      q.get? d.name = p.get? d.name)
    (habove : ∀ d ∈ g.declared, d.dependsOn v.name = true → ∀ b, q.get? d.name = some b →
      ∃ r X, g.IsModel .latched r X ∧ X.get? d.name = some b ∧ ∀ m ∈ g.declared,
        m.isMutable = true → d.dependsOn m.name = true →
        X.get? m.name = some ((q.get? m.name).getD m.default)) : g.Consistent .latched q := by
  have hwell := hg.wellFormed
  obtain ⟨s, hs⟩ := (consistent_iff_exists_isCompletion hwell hl hp).mp h
  obtain ⟨E, hE, hvalues⟩ := exists_evaluation hg hl hd q
  refine (consistent_iff_exists_isCompletion hwell hl hq).mpr
    ⟨E, isCompletion_of_extends hu hE ?_ ?_⟩
  · intro name b hb
    obtain ⟨u, hmem, rfl⟩ := List.mem_map.mp (hq name (Table.contains_iff.mpr ⟨b, hb⟩))
    cases hm : u.isMutable with
    | true => rw [hvalues u hmem hm, hb, Option.getD_some]
    | false =>
      cases hdep : u.dependsOn v.name with
      | true =>
        obtain ⟨r, X, hX, hb, hroots⟩ := habove u hmem hdep b hb
        rw [← hb]
        refine hE.get?_eq_of_roots hwell hg.closed hl hX u hmem ?_
        intro m hm' hder hroot
        have hk := hu.isMutable hm' hder
        rcases hroot with rfl | hroot
        · rw [hk] at hm
          cases hm
        · rw [hvalues m hm' hk, hroots m hm' hk hroot]
      | false =>
        rw [← hs.extends_known _ _ ((hsame u hmem hm hdep).symm.trans hb)]
        refine hE.get?_eq_of_roots hwell hg.closed hl hs.toIsModel u hmem ?_
        intro m hm' hder hroot
        have hk := hu.isMutable hm' hder
        rw [hvalues m hm' hk, hs.get?_mutable hm' hk, hmutable m hm' hk]
        rintro rfl
        rcases hroot with rfl | hroot
        · rw [hk] at hm
          cases hm
        · rw [hdep] at hroot
          cases hroot
  · intro m hm hk hn
    rw [hvalues m hm hk, hn]
    rfl

/-! ### The mutable and the flips -/

variable (hv : v ∈ g.declared) (hm : v.isMutable = true) (hp : g.IsKnowledge p)
  (hq : g.IsKnowledge q) (hsame : g.SameBut v p q)

include hv hm hp hq hsame

/-- **The same flips of the others are consistent**, if the mutable is fenced. -/
theorem Consistent.flipAll_sameBut (hfenced : g.Fenced q v) (hM : g.IsModel .latched q M)
    (hF : F.Sublist (g.unknownMutables p)) (hG : G.Sublist (g.unknownMutables q))
    (hflips : ∀ m ∈ g.declared, m ≠ v → (m ∈ G ↔ m ∈ F))
    (h : g.Consistent .latched (flipAll p F)) : g.Consistent .latched (flipAll q G) := by
  have hwell := hg.wellFormed
  have hflipped : g.Flipped p (flipAll p F) := ⟨F, hF, rfl⟩
  have hflipped' : g.Flipped q (flipAll q G) := ⟨G, hG, rfl⟩
  refine h.transfer (v := v) hg hl hd hu (hflipped.isKnowledge hwell hp)
    (hflipped'.isKnowledge hwell hq) ?_ ?_ ?_
  · intro m hmem hk hne
    rw [hsame.get?_flipAll hg hF hG hflips hmem hk hne]
  · intro d hmem hnot hdep
    have hne : d ≠ v := by
      rintro rfl
      rw [hm] at hnot
      cases hnot
    rw [hflipped.get?_eq hwell hmem hnot, hflipped'.get?_eq hwell hmem hnot,
      hsame d hmem hne hdep]
  · intro d hmem hdep b hb
    have hnot := hg.isMutable_of_dependsOn hmem hdep
    rw [hflipped'.get?_eq hwell hmem hnot] at hb
    refine ⟨q, M, hM, hM.extends_known _ _ hb, ?_⟩
    intro m hmem' hk hroot
    obtain ⟨c, hc⟩ := Option.ne_none_iff_exists'.mp
      (hfenced d hmem hdep (by rw [hb]; exact Option.some_ne_none b) m hmem' hk hroot)
    rw [hflipped'.extends hwell _ _ hc, hM.extends_known _ _ hc, Option.getD_some]

/-- **Without the mutable the least set of flips is least**, if it is fenced before and after. -/
theorem LeastFlips.sameBut (hfenced : g.Fenced p v) (hfenced' : g.Fenced q v)
    (hM : g.IsModel .latched p M) (hM' : g.IsModel .latched q M') (hknown : q.get? v.name ≠ none)
    (h : g.LeastFlips .latched p F) :
    g.LeastFlips .latched q (F.filter fun u => decide (v.name ≠ u.name)) := by
  have hwell := hg.wellFormed
  have hother : ∀ m ∈ g.declared, m ≠ v → v.name ≠ m.name :=
    fun m hmem hne he => hne (hwell.eq_of_name hmem hv he.symm)
  have hunknown : g.unknownMutables q =
      (g.unknownMutables p).filter fun u => decide (v.name ≠ u.name) := by
    rw [unknownMutables, unknownMutables, List.filter_filter]
    refine List.filter_congr ?_
    intro u hu
    obtain ⟨hmem, hk⟩ := List.mem_filter.mp hu
    by_cases hne : u = v
    · subst hne
      obtain ⟨b, hb⟩ := Option.ne_none_iff_exists'.mp hknown
      simp [Table.contains_iff.mpr ⟨b, hb⟩]
    · rw [Table.contains, Table.contains,
        hsame u hmem hne (hg.dependsOn_mutable hmem hk v.name)]
      simp [hother u hmem hne]
  have hpart : ∀ (H : List Variable), ∀ m ∈ g.declared, m ≠ v →
      (m ∈ H.filter (fun u => decide (v.name ≠ u.name)) ↔ m ∈ H) := by
    intro H m hmem hne
    simp [List.mem_filter, hother m hmem hne]
  refine ⟨?_, ?_, ?_⟩
  · rw [hunknown]
    exact h.sublist.filter _
  · refine h.consistent.flipAll_sameBut hg hl hd hu hv hm hp hq hsame hfenced' hM' h.sublist ?_
      (hpart F)
    rw [hunknown]
    exact h.sublist.filter _
  · intro G hG hearlier hc
    have hG' := hunknown ▸ hG
    obtain ⟨H, hH, rfl, hlt⟩ :=
      exists_earlier_of_filter (pairwise_unknownMutables hwell p) h.sublist hG' hearlier
    exact h.least H hH hlt (hc.flipAll_sameBut hg hl hd hu hv hm hq hp hsame.symm hfenced hM hG hH
      fun m hmem hne => (hpart H m hmem hne).symm)

/-- **Every other mutable is in the solution as it was**, if the mutable is fenced before and
after. -/
theorem solve_sameBut (hfenced : g.Fenced p v) (hfenced' : g.Fenced q v)
    (hknown : q.get? v.name ≠ none) (hM : g.solve p = .ok (some M))
    (hM' : g.solve q = .ok (some M')) {m : Variable} (hmem : m ∈ g.declared)
    (hk : m.isMutable = true) (hne : m ≠ v) : M'.get? m.name = M.get? m.name := by
  have hwell := hg.wellFormed
  have hres := resolves_of_solve hwell hl hp hM
  have hres' := resolves_of_solve hwell hl hq hM'
  have hleast := hres.least.sameBut hg hl hd hu hv hm hp hq hsame hfenced hfenced' hres.model
    hres'.model hknown
  have hfind := (findConsistent_iff_leastFlips hwell hl).mpr ⟨_, hleast, rfl⟩
  rw [solve_of_findConsistent hfind] at hM'
  have hflipped : g.Flipped q _ := ⟨_, hleast.sublist, rfl⟩
  have hcompletion := isCompletion_of_complete? hwell hl (hflipped.isKnowledge hwell hq) hM'
  have hcompletion' := isCompletion_flipsOf hwell hres.model
  rw [hcompletion.get?_mutable hmem hk, hcompletion'.get?_mutable hmem hk,
    hsame.get?_flipAll hg hres.least.sublist hleast.sublist ?_ hmem hk hne]
  intro m' hmem' hne'
  rw [List.mem_filter]
  refine ⟨fun h => h.1, fun h => ⟨h, ?_⟩⟩
  rw [decide_eq_true_eq]
  exact fun he => hne' (hwell.eq_of_name hmem' hv he.symm)

end

end Chronicle.Graph
