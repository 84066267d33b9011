import Chronicle.Formula
import Chronicle.Proofs.Completion.Model

/-!
# Formulas are local

A formula reads the names that it mentions (`reads`), and nothing else: it gives the same where
these answer the same (`eval_congr`), and it does not fail where all of them answer
(`exists_eval`).  So a graph whose rules are formulas over closures has local rules
(`isLocal_of_reads`).
-/

namespace Chronicle

namespace Formula

mutual

/-- The names that a formula mentions, those of the bits of its dials included. -/
def reads : Formula → List String
  | constant _ => []
  | value name => [name]
  | known name => [name]
  | not f => reads f
  | all fs => readsAll fs
  | any fs => readsAll fs
  | differ f g => reads f ++ reads g
  | choose c f g => reads c ++ (reads f ++ reads g)
  | atLeast _ fs => readsAll fs
  | compare d _ _ => d.bits.map Symbol.name
  | inRange d => d.bits.map Symbol.name

def readsAll : List Formula → List String
  | [] => []
  | f :: fs => reads f ++ readsAll fs

end

variable {s t : Valuation}

def Agree (s t : Valuation) (names : List String) : Prop :=
  ∀ name ∈ names, s.get? name = t.get? name

def Answers (s : Valuation) (names : List String) : Prop :=
  ∀ name ∈ names, s.contains name = true

theorem Agree.left {l m : List String} (h : Agree s t (l ++ m)) : Agree s t l :=
  fun name hn => h name (List.mem_append_left m hn)

theorem Agree.right {l m : List String} (h : Agree s t (l ++ m)) : Agree s t m :=
  fun name hn => h name (List.mem_append_right l hn)

theorem Answers.left {l m : List String} (h : Answers s (l ++ m)) : Answers s l :=
  fun name hn => h name (List.mem_append_left m hn)

theorem Answers.right {l m : List String} (h : Answers s (l ++ m)) : Answers s m :=
  fun name hn => h name (List.mem_append_right l hn)

theorem value_congr_of_agree {d : Dial} (h : Agree s t (d.bits.map Symbol.name)) :
    d.value s = d.value t :=
  Dial.value_congr fun b hb => h b.name (List.mem_map_of_mem hb)

theorem exists_value_of_answers {d : Dial} (h : Answers s (d.bits.map Symbol.name)) :
    ∃ n, d.value s = .ok n :=
  Dial.value_eq_ok fun b hb => h b.name (List.mem_map_of_mem hb)

/-! ### Agreement -/

mutual

theorem eval_congr : ∀ (f : Formula), Agree s t (reads f) → eval s f = eval t f
  | constant _, _ => rfl
  | value name, h => by
    simp only [eval, Valuation.read, h name List.mem_cons_self]
  | known name, h => by
    simp only [eval, Table.contains, h name List.mem_cons_self]
  | not f, h => by
    simp only [eval, eval_congr f h]
  | all fs, h => by
    simp only [eval, (evals_congr fs h).1]
  | any fs, h => by
    simp only [eval, (evals_congr fs h).2.1]
  | differ f g, h => by
    simp only [eval, eval_congr f h.left, eval_congr g h.right]
  | choose c f g, h => by
    simp only [eval, eval_congr c h.left, eval_congr f h.right.left, eval_congr g h.right.right]
  | atLeast k fs, h => by
    simp only [eval, (evals_congr fs h).2.2]
  | compare d c k, h => by
    simp only [eval, value_congr_of_agree h]
  | inRange d, h => by
    simp only [eval, Dial.isValid, value_congr_of_agree h]

theorem evals_congr : ∀ (fs : List Formula), Agree s t (readsAll fs) →
    evalAll s fs = evalAll t fs ∧ evalAny s fs = evalAny t fs ∧ count s fs = count t fs
  | [], _ => ⟨rfl, rfl, rfl⟩
  | f :: fs, h => by
    obtain ⟨hall, hany, hcount⟩ := evals_congr fs h.right
    have hf := eval_congr f h.left
    refine ⟨?_, ?_, ?_⟩
    · simp only [evalAll, hf, hall]
    · simp only [evalAny, hf, hany]
    · simp only [count, hf, hcount]

end

/-! ### No failure -/

mutual

theorem exists_eval : ∀ (f : Formula), Answers s (reads f) → ∃ b, eval s f = .ok b
  | constant b, _ => ⟨b, rfl⟩
  | value name, h => by
    obtain ⟨b, hb⟩ := Table.contains_iff.mp (h name List.mem_cons_self)
    exact ⟨b, Valuation.read_eq_ok_iff.mpr hb⟩
  | known name, _ => ⟨s.contains name, rfl⟩
  | not f, h => by
    obtain ⟨b, hb⟩ := exists_eval f h
    exact ⟨!b, by simp [eval, hb]⟩
  | all fs, h => by
    obtain ⟨b, hb⟩ := (exists_evals fs h).1
    exact ⟨b, hb⟩
  | any fs, h => by
    obtain ⟨b, hb⟩ := (exists_evals fs h).2.1
    exact ⟨b, hb⟩
  | differ f g, h => by
    obtain ⟨a, ha⟩ := exists_eval f h.left
    obtain ⟨b, hb⟩ := exists_eval g h.right
    exact ⟨a != b, by simp [eval, ha, hb]⟩
  | choose c f g, h => by
    obtain ⟨a, ha⟩ := exists_eval c h.left
    obtain ⟨b, hb⟩ := exists_eval f h.right.left
    obtain ⟨b', hb'⟩ := exists_eval g h.right.right
    cases a with
    | true => exact ⟨b, by simp [eval, ha, hb]⟩
    | false => exact ⟨b', by simp [eval, ha, hb']⟩
  | atLeast k fs, h => by
    obtain ⟨n, hn⟩ := (exists_evals fs h).2.2
    exact ⟨decide (k ≤ n), by simp [eval, hn]⟩
  | compare d c k, h => by
    obtain ⟨n, hn⟩ := exists_value_of_answers h
    exact ⟨c.holds n k, by simp [eval, hn]⟩
  | inRange d, h => by
    obtain ⟨n, hn⟩ := exists_value_of_answers h
    exact ⟨decide (n ≤ d.max), by simp [eval, Dial.isValid, hn]⟩

theorem exists_evals : ∀ (fs : List Formula), Answers s (readsAll fs) →
    (∃ b, evalAll s fs = .ok b) ∧ (∃ b, evalAny s fs = .ok b) ∧ ∃ n, count s fs = .ok n
  | [], _ => ⟨⟨true, rfl⟩, ⟨false, rfl⟩, 0, rfl⟩
  | f :: fs, h => by
    obtain ⟨⟨a, ha⟩, ⟨b, hb⟩, n, hn⟩ := exists_evals fs h.right
    obtain ⟨c, hc⟩ := exists_eval f h.left
    cases c with
    | true => exact ⟨⟨a, by simp [evalAll, hc, ha]⟩, ⟨true, by simp [evalAny, hc]⟩,
        n + 1, by simp [count, hc, hn]⟩
    | false => exact ⟨⟨false, by simp [evalAll, hc]⟩, ⟨b, by simp [evalAny, hc, hb]⟩,
        n, by simp [count, hc, hn]⟩

end

end Formula

/-- **Rules that are formulas over closures are local.** -/
theorem Graph.isLocal_of_reads {g : Graph} (h : ∀ v ∈ g.declared, ∀ rule, v.rule? = some rule →
    ∃ f : Formula, rule = f.rule ∧ ∀ name ∈ f.reads, v.dependsOn name = true) : g.IsLocal := by
  intro v hv rule hr
  obtain ⟨f, rfl, hreads⟩ := h v hv rule hr
  refine ⟨?_, ?_⟩
  · intro s t hst
    exact Formula.eval_congr f fun name hn => hst name (hreads name hn)
  · intro s hs
    exact Formula.exists_eval f fun name hn => hs name (hreads name hn)

end Chronicle
