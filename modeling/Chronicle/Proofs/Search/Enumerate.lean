import Chronicle.Proofs.Search.Least

/-!
# All consistent states, in order

A search that collects does not stop at the first consistent state but when it has as many as were
asked for.  It goes through the same list of flip sets (`Search.first_eq`), and at each set it
either adds the flipped state to what it has or passes on.  So what it has collected is always a
beginning of one list, the consistent ones among all flip sets (`run_collecting`), and the order of
that list is the order of the flip sets: lexicographic, each set once (`takeConsistent_enumerates`).
-/

namespace Chronicle

namespace Search

/-- The valuation with the members of a set pinned to the opposites of their defaults, all at
once. -/
def pinned (p : Valuation) (F : List Variable) : Valuation :=
  p.update (F.map fun v => (v.name, !v.default))

/-- **To flip one after another** comes to the same. -/
theorem flipAll_eq_pinned (p : Valuation) : flipAll p = pinned p := by
  funext F
  induction F generalizing p with
  | nil => rfl
  | cons v rest ih => exact ih (flip p v)

end Search

namespace Graph

open Search (flipAll flipSets pinned)

variable {g : Graph} {mode : Mode} {n : Nat} {p q : Valuation} {acc : List Valuation}
  {F G : List Variable}

/-- Adds a consistent state to those collected, and says when there are as many as asked for. -/
def collecting (g : Graph) (mode : Mode) (n : Nat) (q : Valuation) :
    StateT (List Valuation) (Except Error) (Option Unit) := do
  if ← g.isConsistent mode q then modify (· ++ [q])
  return if (← getThe (List Valuation)).length = n then some () else none

theorem takeConsistent_eq (hn : n ≠ 0) :
    g.takeConsistent mode n p =
      Prod.snd <$> ((flipSets (g.unknownMutables p)).findSomeM? fun F =>
        g.collecting mode n (flipAll p F)).run [] := by
  rw [takeConsistent, if_neg hn, ← Search.first_eq]
  rfl

section

variable {consistent : Valuation → Bool} (hc : ∀ q, g.isConsistent mode q = .ok (consistent q))

include hc

theorem run_collecting (q : Valuation) (acc : List Valuation) :
    (g.collecting mode n q).run acc =
      if consistent q then .ok (if (acc ++ [q]).length = n then some () else none, acc ++ [q])
      else .ok (if acc.length = n then some () else none, acc) := by
  unfold collecting
  cases hq : consistent q with
  | true => simp [hc, hq]
  | false => simp [hc, hq]

/-- **What has been collected** at the end of a list of flip sets: what was there before, and of the
consistent ones in the list as many as were still asked for. -/
theorem run_findSomeM?_collecting (p : Valuation) (sets : List (List Variable))
    (hacc : acc.length < n) :
    ∃ r, (sets.findSomeM? fun F => g.collecting mode n (flipAll p F)).run acc =
      .ok (r, acc ++ ((sets.map (flipAll p)).filter consistent).take (n - acc.length)) := by
  induction sets generalizing acc with
  | nil => exact ⟨none, by simp⟩
  | cons F rest ih =>
    have hstep : ((F :: rest).findSomeM? fun F => g.collecting mode n (flipAll p F)).run acc =
        ((g.collecting mode n (flipAll p F)).run acc >>= fun out => match out with
          | (some r, acc') => .ok (some r, acc')
          | (none, acc') =>
            (rest.findSomeM? fun F => g.collecting mode n (flipAll p F)).run acc') := by
      rw [List.findSomeM?_cons, StateT.run_bind]
      refine bind_congr ?_
      rintro ⟨_ | _, _⟩ <;> rfl
    rw [hstep, run_collecting hc, List.map_cons]
    cases hF : consistent (flipAll p F) with
    | false =>
      obtain ⟨r, hr⟩ := ih hacc
      refine ⟨r, ?_⟩
      rw [if_neg Bool.false_ne_true, if_neg (Nat.ne_of_lt hacc),
        List.filter_cons_of_neg (by simp [hF])]
      exact hr
    | true =>
      rw [if_pos rfl, List.filter_cons_of_pos hF]
      have hlen : (acc ++ [flipAll p F]).length = acc.length + 1 := List.length_append
      by_cases hfull : acc.length + 1 = n
      · -- the last one that was asked for: nothing after it is looked at
        refine ⟨some (), ?_⟩
        have hone : n - acc.length = 1 := by omega
        rw [hlen, if_pos hfull, hone]
        rfl
      · have hroom : (acc ++ [flipAll p F]).length < n := by omega
        obtain ⟨r, hr⟩ := ih hroom
        refine ⟨r, ?_⟩
        have hmore : n - acc.length = n - (acc ++ [flipAll p F]).length + 1 := by omega
        rw [hlen, if_neg hfull, hmore, List.take_succ_cons]
        rw [List.append_assoc] at hr
        exact hr

/-- **The search that collects** comes to the first ones of the consistent flipped states. -/
theorem takeConsistent_eq_take (n : Nat) (p : Valuation) :
    g.takeConsistent mode n p =
      .ok ((((flipSets (g.unknownMutables p)).map (flipAll p)).filter consistent).take n) := by
  by_cases hn : n = 0
  · rw [takeConsistent, if_pos hn, hn, List.take_zero]
  · have hroom : ([] : List Valuation).length < n := Nat.pos_of_ne_zero hn
    obtain ⟨r, hr⟩ := run_findSomeM?_collecting hc p (flipSets (g.unknownMutables p)) hroom
    rw [takeConsistent_eq hn, hr]
    rfl

end

theorem eq_of_sublist_unknownMutables (hg : g.WellFormed) (hF : F.Sublist (g.unknownMutables p))
    (hG : G.Sublist (g.unknownMutables p)) (h : ∀ v, v ∈ F ↔ v ∈ G) : F = G := by
  have hnodup : ∀ {H : List Variable}, H.Sublist (g.unknownMutables p) → H.Nodup := fun hH =>
    (nodup_of_sublist_unknownMutables hg hH).of_map
  have hperm : F.Perm G := (List.perm_ext_iff_of_nodup (hnodup hF) (hnodup hG)).mpr h
  have hsorted := pairwise_unknownMutables hg p
  refine hperm.eq_of_pairwise ?_ (hsorted.sublist hF) (hsorted.sublist hG)
  intro u v _ _ huv hvu
  exact absurd hvu huv.asymm

/-- **The search lists every consistent set of flips once, in lexicographic order.**  There is one
list of sets of flips such that the first consistent states, however many are asked for, are what
its first members lead to.  The list has exactly the sets of unknown mutables whose flips have a
completion, it has each of them once, and it is in lexicographic order, a set before those that
extend it.  And flips never touch what is known, nor any variable that is not a mutable. -/
theorem takeConsistent_enumerates (hg : g.IsValid) (hl : g.IsLocal) (mode : Mode) (p : Valuation) :
    ∃ sets : List (List Variable),
      (∀ n, g.takeConsistent mode n p = .ok ((sets.take n).map (pinned p))) ∧
      (∀ F, F ∈ sets ↔ F.Sublist (g.unknownMutables p) ∧
        ∃ s, g.complete? mode (pinned p F) = .ok (some s)) ∧
      sets.Pairwise g.Earlier ∧
      sets.Pairwise (fun F G => ¬ ∀ v, v ∈ F ↔ v ∈ G) ∧
      ∀ F ∈ sets, (pinned p F).Extends p ∧
        ∀ v ∈ g.declared, v.isMutable = false →
          (pinned p F).get? v.name = p.get? v.name := by
  have hw := hg.wellFormed
  have htotal : ∀ q, ∃ b, g.isConsistent mode q = .ok b := by
    intro q
    rcases isConsistent_cases hw hl mode q with ⟨_, h⟩ | ⟨_, h⟩
    · exact ⟨true, h⟩
    · exact ⟨false, h⟩
  choose consistent hc using htotal
  let sets := (flipSets (g.unknownMutables p)).filter fun F => consistent (flipAll p F)
  have hmem : ∀ F, F ∈ sets ↔
      F.Sublist (g.unknownMutables p) ∧ g.Consistent mode (flipAll p F) := by
    intro F
    rw [List.mem_filter, Search.mem_flipSets, ← isConsistent_eq_true_iff, hc, Except.ok.injEq]
  have hsorted : sets.Pairwise g.Earlier :=
    (Search.pairwise_flipSets (pairwise_unknownMutables hw p)).sublist List.filter_sublist
  simp only [← Search.flipAll_eq_pinned]
  refine ⟨sets, ?_, hmem, hsorted, ?_, ?_⟩
  · intro n
    rw [takeConsistent_eq_take hc, List.filter_map, List.map_take]
    rfl
  · refine hsorted.imp_of_mem ?_
    intro F G hF hG hearlier hsame
    obtain rfl := eq_of_sublist_unknownMutables hw ((hmem F).mp hF).1 ((hmem G).mp hG).1 hsame
    exact hearlier.asymm hearlier
  · intro F hF
    have hflipped : g.Flipped p (flipAll p F) := ⟨F, ((hmem F).mp hF).1, rfl⟩
    exact ⟨hflipped.extends hw, fun v hv hm => hflipped.get?_eq hw hv hm⟩

/-- An alarm that must go off asks for the dial at one.  The lamp can be either way; it is declared
first, so it is flipped first. -/
theorem takeConsistent_enumerates_clock :
    ∃ sets : List (List Variable), sets.Pairwise clock.Earlier ∧
      clock.takeConsistent .exact 2 (.ofList [("alarm", true)]) =
        .ok ((sets.take 2).map (pinned (.ofList [("alarm", true)]))) ∧
      [Clock.lamp, Clock.low, Clock.high] ∈ sets ∧ [Clock.low, Clock.high] ∈ sets ∧
      [Clock.low] ∉ sets := by
  obtain ⟨sets, htake, hmem, hsorted, _⟩ := takeConsistent_enumerates clock_isValid clock_isLocal
    .exact (.ofList [("alarm", true)])
  have hcandidates : clock.unknownMutables (.ofList [("alarm", true)]) =
      [Clock.lamp, Clock.low, Clock.high] := rfl
  rw [hcandidates] at hmem
  refine ⟨sets, hsorted, htake 2, (hmem _).mpr ⟨.refl _, ?_⟩, (hmem _).mpr ⟨.cons _ (.refl _), ?_⟩,
    ?_⟩
  · exact ⟨.ofList [("alarm", true), ("lamp", true), ("dial_bit0", true), ("dial_bit1", false)],
      by decide +kernel⟩
  · exact ⟨.ofList [("alarm", true), ("dial_bit0", true), ("dial_bit1", false), ("lamp", false)],
      by decide +kernel⟩
  · intro hlow
    obtain ⟨_, s, hs⟩ := (hmem _).mp hlow
    have hnone : clock.complete? .exact (pinned (.ofList [("alarm", true)]) [Clock.low]) =
        .ok none := by decide +kernel
    rw [hnone] at hs
    cases hs

end Graph

end Chronicle
