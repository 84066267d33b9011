import Chronicle.Proofs.Completion.Fill

/-!
# One pass over the evaluation order

The pass settles one variable after another on a valuation that grows.  What has to hold in the end
is said of the last valuation alone: `v.Obeys mode s t` if in `t` the variable `v` has the value of
its rule, or the value recorded in `s` where the rule admits it.

* `settle_cases`, `pass_total`: rules that read nothing but their closure do not fail, because the
  closure is there when its turn comes.
* `pass_sound`: where the pass ends, it has extended the valuation and every variable obeys.
* `pass_complete`: if the valuation has an extension in which every variable obeys, the pass ends,
  below that extension.

What carries both directions is that a rule gives the same on the growing valuation and on the
last one: they agree on the closure (`rule_eq_of_extends`).
-/

namespace Chronicle

namespace Variable

/-- The recorded value may stand while the rule says so: a derived variable has the value of its
rule, and a latch is held against its rule as the mode says. -/
def admits (v : Variable) (mode : Mode) (recorded computed : Bool) : Bool :=
  if v.isTriggered then mode.admits recorded computed else recorded == computed

/-- In `t` the variable has the value of its rule, or else the rule admits what `s` recorded. -/
def Obeys (v : Variable) (mode : Mode) (s t : Valuation) : Prop :=
  ∃ rule b, v.rule? = some rule ∧ rule t = .ok b ∧
    match s.get? v.name with
    | none => t.get? v.name = some b
    | some r => v.admits mode r b = true

theorem admits_self (v : Variable) (mode : Mode) (b : Bool) : v.admits mode b b = true := by
  cases mode <;> simp [admits, Mode.admits]

/-- Only a latch recorded true may differ from its rule, and only if `latched`. -/
theorem eq_of_admits {v : Variable} {mode : Mode} {r b : Bool} (h : v.admits mode r b = true)
    (hopen : ¬ (mode = .latched ∧ v.isTriggered = true ∧ r = true)) : r = b := by
  cases hk : v.isTriggered with
  | false => simpa [admits, hk] using h
  | true =>
    cases mode with
    | exact => simpa [admits, hk, Mode.admits] using h
    | latched =>
      have hfalse : r = false := by simpa [hk] using hopen
      have hb : b = false := by simpa [admits, hk, Mode.admits, hfalse] using h
      rw [hfalse, hb]

/-- **To obey is the same under another record**, as long as both records are right about `t` and
no latch recorded true is forgotten: everything else has the value of its rule in `t` anyway. -/
theorem Obeys.transfer {v : Variable} {mode : Mode} {s s' t : Valuation} (h : v.Obeys mode s t)
    (hs : ∀ b, s.get? v.name = some b → t.get? v.name = some b)
    (hs' : ∀ b, s'.get? v.name = some b → t.get? v.name = some b)
    (hlatch : mode = .latched → v.isTriggered = true → s.get? v.name = some true →
      s'.contains v.name = true) : v.Obeys mode s' t := by
  obtain ⟨rule, b, hr, hb, hmatch⟩ := h
  refine ⟨rule, b, hr, hb, ?_⟩
  by_cases hkept : mode = .latched ∧ v.isTriggered = true ∧ s.get? v.name = some true
  · obtain ⟨hmode, hk, htrue⟩ := hkept
    obtain ⟨r, hr'⟩ := Table.contains_iff.mp (hlatch hmode hk htrue)
    have hrecorded : r = true := Option.some.inj ((hs' r hr').symm.trans (hs true htrue))
    rw [hr']
    simp [admits, Mode.admits, hmode, hk, hrecorded]
  · have hvalue : t.get? v.name = some b := by
      cases hsv : s.get? v.name with
      | none =>
        rw [hsv] at hmatch
        exact hmatch
      | some r =>
        rw [hsv] at hmatch hkept
        rw [hs r hsv, eq_of_admits hmatch (by simpa using hkept)]
    cases hs'v : s'.get? v.name with
    | none => exact hvalue
    | some r =>
      obtain rfl : b = r := Option.some.inj (hvalue.symm.trans (hs' r hs'v))
      exact admits_self v mode b

theorem obeys_set_iff {v : Variable} {mode : Mode} {s t : Valuation} {name : String} {b : Bool}
    (h : name ≠ v.name) : v.Obeys mode (s.set name b) t ↔ v.Obeys mode s t := by
  unfold Obeys
  rw [Table.get?_set_of_ne _ h]

theorem isMutable_of_derived {v : Variable} {rule : Rule} (h : v.role = .derived rule) :
    v.isMutable = false := by
  rw [isMutable, kind, h]
  rfl

theorem isMutable_of_triggered {v : Variable} {rule : Rule} {persistent : Bool}
    (h : v.role = .triggered rule persistent) : v.isMutable = false := by
  rw [isMutable, kind, h]
  rfl

theorem isDerived_of_isMutable {v : Variable} (h : v.isMutable = true) : v.isDerived = false := by
  rw [isMutable, beq_iff_eq] at h
  rw [isDerived, h]
  rfl

theorem isDerived_of_isTriggered {v : Variable} (h : v.isTriggered = true) :
    v.isDerived = false := by
  rw [isTriggered, beq_iff_eq] at h
  rw [isDerived, h]
  rfl

theorem isMutable_of_isTriggered {v : Variable} (h : v.isTriggered = true) :
    v.isMutable = false := by
  rw [isTriggered, beq_iff_eq] at h
  rw [isMutable, h]
  rfl

theorem ne_of_isTriggered {v t : Variable} (hm : v.isMutable = true) (ht : t.isTriggered = true) :
    v ≠ t := by
  rintro rfl
  rw [isMutable_of_isTriggered ht] at hm
  cases hm

theorem isTriggered_of_isPersistent {v : Variable} (h : v.isPersistent = true) :
    v.isTriggered = true := by
  obtain ⟨symbol, role, dependencies, closure⟩ := v
  cases role with
  | mutable d r => cases h
  | derived rule => cases h
  | triggered rule persistent => rfl

theorem isTriggered_of_not {v : Variable} (hm : v.isMutable = false) (hd : v.isDerived = false) :
    v.isTriggered = true := by
  obtain ⟨symbol, role, dependencies, closure⟩ := v
  cases role with
  | mutable d r => cases hm
  | derived rule => cases hd
  | triggered rule persistent => rfl

theorem role_of_isDerived {v : Variable} (h : v.isDerived = true) :
    ∃ rule, v.role = .derived rule := by
  obtain ⟨symbol, role, dependencies, closure⟩ := v
  cases role with
  | mutable d r => cases h
  | derived rule => exact ⟨rule, rfl⟩
  | triggered rule persistent => cases h

theorem role_of_isTriggered {v : Variable} (h : v.isTriggered = true) :
    ∃ rule persistent, v.role = .triggered rule persistent := by
  obtain ⟨symbol, role, dependencies, closure⟩ := v
  cases role with
  | mutable d r => cases h
  | derived rule => cases h
  | triggered rule persistent => exact ⟨rule, persistent, rfl⟩

theorem rule?_of_derived {v : Variable} {rule : Rule} (h : v.role = .derived rule) :
    v.rule? = some rule := by
  rw [rule?, h]

theorem isMutable_of_role {v : Variable} {d r : Bool} (h : v.role = .mutable d r) :
    v.isMutable = true := by
  rw [isMutable, kind, h]
  rfl

theorem default_of_role {v : Variable} {d r : Bool} (h : v.role = .mutable d r) :
    v.default = d := by
  rw [default, h]

theorem rule?_of_not_mutable {v : Variable} (h : v.isMutable = false) :
    ∃ rule, v.rule? = some rule := by
  obtain ⟨symbol, role, dependencies, closure⟩ := v
  cases role with
  | mutable d r => cases h
  | derived rule => exact ⟨rule, rfl⟩
  | triggered rule persistent => exact ⟨rule, rfl⟩

variable {v : Variable} {mode : Mode} {s t : Valuation} {rule : Rule} {b r : Bool}

theorem settle_unknown (hr : v.rule? = some rule) (hb : rule s = .ok b)
    (h : s.get? v.name = none) : settle mode s v = .mk (.ok (.ok (s.set v.name b))) := by
  obtain ⟨symbol, role, dependencies, closure⟩ := v
  cases role with
  | mutable d r => cases hr
  | derived rule' =>
    cases hr
    simp only [settle, hb]
    show (match s.get? _ with | none => _ | some observed => _ : Pass Valuation) = _
    rw [h]
    rfl
  | triggered rule' persistent =>
    cases hr
    simp only [settle, hb]
    show (match s.get? _ with | none => _ | some recorded => _ : Pass Valuation) = _
    rw [h]
    rfl

theorem settle_recorded (mode : Mode) (hr : v.rule? = some rule) (hb : rule s = .ok b)
    (h : s.get? v.name = some r) :
    ∃ o, settle mode s v = .mk (.ok (if v.admits mode r b then .ok s else .error o)) := by
  obtain ⟨symbol, role, dependencies, closure⟩ := v
  cases role with
  | mutable d r => cases hr
  | derived rule' =>
    cases hr
    refine ⟨.derivation symbol.name r b, ?_⟩
    simp only [settle, hb]
    show (match s.get? _ with | none => _ | some observed => _ : Pass Valuation) = _
    rw [h]
    by_cases he : r = b <;> simp [admits, isTriggered, kind, he] <;> rfl
  | triggered rule' persistent =>
    cases hr
    refine ⟨if mode = .exact then .firing symbol.name r b else .latch symbol.name, ?_⟩
    simp only [settle, hb]
    show (match s.get? _ with | none => _ | some recorded => _ : Pass Valuation) = _
    rw [h]
    by_cases he : mode.admits r b <;> simp [admits, isTriggered, kind, he] <;> rfl

end Variable

namespace Graph

open Variable (settle)

variable {g : Graph} {mode : Mode} {s t : Valuation} {v : Variable} {l : List Variable}

theorem rule_eq_of_extends (hl : g.IsLocal) (hv : v ∈ g.declared) {rule : Rule}
    (hr : v.rule? = some rule) (hc : ∀ name, v.dependsOn name = true → s.contains name = true)
    (ht : t.Extends s) : rule t = rule s :=
  (hl v hv rule hr).1 t s fun name hd => ht.get?_eq (hc name hd)

theorem settle_cases (mode : Mode) (hl : g.IsLocal) (hv : v ∈ g.declared)
    (hm : v.isMutable = false)
    (hc : ∀ name, v.dependsOn name = true → s.contains name = true) :
    ∃ rule b, v.rule? = some rule ∧ rule s = .ok b ∧
      ((s.get? v.name = none ∧ settle mode s v = .mk (.ok (.ok (s.set v.name b)))) ∨
        ∃ r, s.get? v.name = some r ∧
          ((v.admits mode r b = true ∧ settle mode s v = .mk (.ok (.ok s))) ∨
            (v.admits mode r b = false ∧ ∃ o, settle mode s v = .mk (.ok (.error o))))) := by
  obtain ⟨rule, hr⟩ := Variable.rule?_of_not_mutable hm
  obtain ⟨b, hb⟩ := (hl v hv rule hr).2 s hc
  refine ⟨rule, b, hr, hb, ?_⟩
  cases hs : s.get? v.name with
  | none => exact Or.inl ⟨rfl, Variable.settle_unknown hr hb hs⟩
  | some r =>
    obtain ⟨o, ho⟩ := Variable.settle_recorded mode hr hb hs
    refine Or.inr ⟨r, rfl, ?_⟩
    cases ha : v.admits mode r b with
    | true => exact Or.inl ⟨rfl, by rw [ho, ha]; rfl⟩
    | false => exact Or.inr ⟨rfl, o, by rw [ho, ha]; rfl⟩

theorem pass_cons {s' : Valuation} (h : settle mode s v = .mk (.ok (.ok s'))) :
    (v :: l).foldlM (settle mode) s = l.foldlM (settle mode) s' := by
  rw [List.foldlM_cons, h]
  rfl

theorem pass_cons_stuck {o : Obstacle} (h : settle mode s v = .mk (.ok (.error o))) :
    (v :: l).foldlM (settle mode) s = .mk (.ok (.error o)) := by
  rw [List.foldlM_cons, h]
  rfl

/-- What the next variable has to find: a list of declared variables that are not mutable, each
after its closure. -/
structure Pending (g : Graph) (s : Valuation) (l : List Variable) : Prop where
  declared : ∀ v ∈ l, v ∈ g.declared ∧ v.isMutable = false
  distinct : (l.map Variable.name).Nodup
  follows : Follows (fun v name => v.dependsOn name) (fun name => s.contains name = true) l

theorem Pending.tail {s' : Valuation} (h : g.Pending s (v :: l)) (hs : s'.Extends s)
    (hv : s'.contains v.name = true) : g.Pending s' l where
  declared := fun w hw => h.declared w (List.mem_cons_of_mem v hw)
  distinct := (List.nodup_cons.mp h.distinct).2
  follows := by
    refine h.follows.2.mono ?_
    rintro name (hn | rfl)
    · exact hs.contains hn
    · exact hv

theorem Pending.ne_of_mem_tail (h : g.Pending s (v :: l)) {w : Variable} (hw : w ∈ l) :
    v.name ≠ w.name := by
  intro he
  exact (List.nodup_cons.mp h.distinct).1 (he ▸ List.mem_map_of_mem hw)

/-- **The pass does not fail**: it ends, or it meets an obstacle. -/
theorem pass_total (mode : Mode) (hl : g.IsLocal) (h : g.Pending s l) :
    ∃ r, (l.foldlM (settle mode) s).run = .ok r := by
  induction l generalizing s with
  | nil => exact ⟨.ok s, rfl⟩
  | cons v rest ih =>
    obtain ⟨hv, hm⟩ := h.declared v List.mem_cons_self
    obtain ⟨rule, b, _, _, ⟨hs, he⟩ | ⟨r, hs, ⟨_, he⟩ | ⟨_, o, he⟩⟩⟩ :=
      settle_cases mode hl hv hm h.follows.1
    · rw [pass_cons he]
      exact ih (h.tail (Valuation.extends_set hs b) (Table.contains_iff.mpr ⟨b, by simp⟩))
    · rw [pass_cons he]
      exact ih (h.tail (Valuation.Extends.refl s) (Table.contains_iff.mpr ⟨r, hs⟩))
    · rw [pass_cons_stuck he]
      exact ⟨.error o, rfl⟩

/-- **Where the pass ends**, it has added the values of exactly these variables, and every one of
them obeys its rule. -/
theorem pass_sound (hl : g.IsLocal) (h : g.Pending s l)
    (ht : (l.foldlM (settle mode) s).run = .ok (.ok t)) :
    t.Extends s ∧
      (∀ name, t.contains name = true ↔ s.contains name = true ∨ name ∈ l.map Variable.name) ∧
        ∀ v ∈ l, v.Obeys mode s t := by
  induction l generalizing s with
  | nil =>
    cases ht
    exact ⟨Valuation.Extends.refl _, by simp, by simp⟩
  | cons v rest ih =>
    obtain ⟨hv, hm⟩ := h.declared v List.mem_cons_self
    obtain ⟨rule, b, hr, hb, ⟨hs, he⟩ | ⟨r, hs, ⟨ha, he⟩ | ⟨_, o, he⟩⟩⟩ :=
      settle_cases mode hl hv hm h.follows.1
    · rw [pass_cons he] at ht
      have hset : Valuation.Extends (s.set v.name b) s := Valuation.extends_set hs b
      have hknown : (s.set v.name b).get? v.name = some b := by simp
      obtain ⟨hext, hnames, hobeys⟩ :=
        ih (h.tail hset (Table.contains_iff.mpr ⟨b, hknown⟩)) ht
      refine ⟨hext.trans hset, ?_, ?_⟩
      · intro name
        rw [hnames, Table.contains_set, List.map_cons, List.mem_cons]
        simp only [Bool.or_eq_true, decide_eq_true_eq]
        tauto
      · intro w hw
        rcases List.mem_cons.mp hw with rfl | hw
        · refine ⟨rule, b, hr, ?_, ?_⟩
          · rw [rule_eq_of_extends hl hv hr h.follows.1 (hext.trans hset), hb]
          · rw [hs]
            exact hext _ _ hknown
        · exact (Variable.obeys_set_iff (h.ne_of_mem_tail hw)).mp (hobeys w hw)
    · rw [pass_cons he] at ht
      obtain ⟨hext, hnames, hobeys⟩ :=
        ih (h.tail (Valuation.Extends.refl s) (Table.contains_iff.mpr ⟨r, hs⟩)) ht
      refine ⟨hext, ?_, ?_⟩
      · intro name
        rw [hnames, List.map_cons, List.mem_cons]
        refine ⟨?_, ?_⟩
        · rintro (hn | hn)
          · exact Or.inl hn
          · exact Or.inr (Or.inr hn)
        · rintro (hn | rfl | hn)
          · exact Or.inl hn
          · exact Or.inl (Table.contains_iff.mpr ⟨r, hs⟩)
          · exact Or.inr hn
      · intro w hw
        rcases List.mem_cons.mp hw with rfl | hw
        · refine ⟨rule, b, hr, ?_, ?_⟩
          · rw [rule_eq_of_extends hl hv hr h.follows.1 hext, hb]
          · rw [hs]
            exact ha
        · exact hobeys w hw
    · rw [pass_cons_stuck he] at ht
      cases ht

/-- **If an extension obeys every rule**, the pass ends below it. -/
theorem pass_complete (hl : g.IsLocal) (h : g.Pending s l) {M : Valuation} (hM : M.Extends s)
    (hobeys : ∀ v ∈ l, v.Obeys mode s M) :
    ∃ t, (l.foldlM (settle mode) s).run = .ok (.ok t) ∧ M.Extends t := by
  induction l generalizing s with
  | nil => exact ⟨s, rfl, hM⟩
  | cons v rest ih =>
    obtain ⟨hv, hm⟩ := h.declared v List.mem_cons_self
    obtain ⟨rule', b', hr', hb', hmatch⟩ := hobeys v List.mem_cons_self
    obtain ⟨rule, b, hr, hb, hcases⟩ := settle_cases mode hl hv hm h.follows.1
    obtain rfl : rule = rule' := Option.some.inj (hr.symm.trans hr')
    have hsame : b = b' := by
      rw [rule_eq_of_extends hl hv hr h.follows.1 hM, hb] at hb'
      exact Except.ok.inj hb'
    subst hsame
    rcases hcases with ⟨hs, he⟩ | ⟨r, hs, ⟨ha, he⟩ | ⟨ha, o, he⟩⟩
    · rw [hs] at hmatch
      rw [pass_cons he]
      have hset : Valuation.Extends (s.set v.name b) s := Valuation.extends_set hs b
      refine ih (h.tail hset (Table.contains_iff.mpr ⟨b, by simp⟩)) ?_ ?_
      · intro name c hc
        rw [Table.get?_set] at hc
        split at hc
        next hn =>
          rw [← hn, hmatch]
          exact hc
        next => exact hM name c hc
      · intro w hw
        rw [Variable.obeys_set_iff (h.ne_of_mem_tail hw)]
        exact hobeys w (List.mem_cons_of_mem v hw)
    · rw [pass_cons he]
      refine ih (h.tail (Valuation.Extends.refl s) (Table.contains_iff.mpr ⟨r, hs⟩)) hM ?_
      intro w hw
      exact hobeys w (List.mem_cons_of_mem v hw)
    · rw [hs] at hmatch
      simp only at hmatch
      rw [ha] at hmatch
      cases hmatch

end Graph

end Chronicle
