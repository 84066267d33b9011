import Chronicle.Proofs.Catalogue.Closure

/-!
# Links of a catalogue

Two things that definitions never take back.  A closure is closed: what it holds is made, and has
its own closure in it, by name.  And the bits of a dial are made with it: mutable, reversible, and
with the digits of the start value for defaults (`Dial.bit`).  `linked_defineAll` proves both of
every catalogue that definitions make.
-/

namespace Chronicle

/-- The variable that a dial makes for one of its digits. -/
def Dial.bit (d : Dial) (i : Nat) : Variable :=
  ⟨⟨d.bitName i, d.base + i⟩, .mutable (d.start.testBit i) true, [], []⟩

namespace Variable

theorem dependsOn_iff {v : Variable} {name : String} :
    v.dependsOn name = true ↔ name ∈ v.closure.map Symbol.name := by
  simp [dependsOn]

theorem name_mem_addSymbol {l : List Symbol} {s : Symbol} {name : String} :
    name ∈ (addSymbol l s).map Symbol.name ↔ name ∈ l.map Symbol.name ∨ name = s.name := by
  unfold addSymbol
  split
  next h =>
    obtain ⟨t, ht, he⟩ := List.any_eq_true.mp h
    have hs : s.name ∈ l.map Symbol.name := List.mem_map.mpr ⟨t, ht, by simpa using he⟩
    refine ⟨Or.inl, ?_⟩
    rintro (hn | rfl)
    · exact hn
    · exact hs
  next => simp [or_comm]

theorem name_mem_foldl_addSymbol {l m : List Symbol} {name : String} :
    name ∈ (l.foldl addSymbol m).map Symbol.name ↔
      name ∈ m.map Symbol.name ∨ name ∈ l.map Symbol.name := by
  induction l generalizing m with
  | nil => simp
  | cons s rest ih =>
    rw [List.foldl_cons, ih, name_mem_addSymbol, List.map_cons, List.mem_cons, or_assoc]

theorem name_mem_closureOf {dependencies : List Variable} {w : Variable}
    (hw : w ∈ dependencies) {name : String} (h : name = w.name ∨ w.dependsOn name = true) :
    name ∈ (closureOf dependencies).map Symbol.name := by
  rw [closureOf, name_mem_foldl_addSymbol, List.map_append, List.mem_append]
  right
  rcases h with rfl | h
  · left
    exact List.mem_map.mpr ⟨w.symbol, List.mem_map_of_mem hw, rfl⟩
  · right
    obtain ⟨s, hs, rfl⟩ := List.mem_map.mp (dependsOn_iff.mp h)
    exact List.mem_map_of_mem (List.mem_flatMap.mpr ⟨w, hw, hs⟩)

end Variable

namespace Catalogue

/-- Whatever the closure holds is made, and has its own closure in it. -/
def Contains (made : List Variable) (v : Variable) : Prop :=
  ∀ s ∈ v.closure, ∃ w ∈ made, w.symbol = s ∧ ∀ name, w.dependsOn name = true →
    v.dependsOn name = true

theorem Contains.mono {made more : List Variable} {v : Variable} (h : Contains made v)
    (hm : made ⊆ more) : Contains more v := by
  intro s hs
  obtain ⟨w, hw, rest⟩ := h s hs
  exact ⟨w, hm hw, rest⟩

theorem contains_of_closure_nil {made : List Variable} {v : Variable} (h : v.closure = []) :
    Contains made v := by
  intro s hs
  rw [h] at hs
  cases hs

def Makes (made : List Variable) (v : Variable) : Prop :=
  ∃ w ∈ made, w.symbol = v.symbol ∧ w.role = v.role

/-- Closures are closed, and dials have their bits. -/
structure Linked (c : Catalogue) : Prop where
  closed : ∀ v ∈ c.made, Contains c.made v
  bits : ∀ label d, c.dial? label = some d → ∀ i < d.width, Makes c.made (d.bit i)

theorem linked_empty : empty.Linked where
  closed := by intro v hv; cases hv
  bits := by intro label d h; cases h

theorem Linked.place {c : Catalogue} (h : c.Linked) (label : String) {v : Variable}
    (hv : Contains c.made v) : (c.place label v).Linked where
  closed := by
    intro w hw
    have hmore : c.made ⊆ c.made ++ [v] := List.subset_append_left _ _
    rcases List.mem_append.mp hw with hw | hw
    · exact (h.closed w hw).mono hmore
    · obtain rfl := List.mem_singleton.mp hw
      exact hv.mono hmore
  bits := by
    intro other d hd i hi
    obtain ⟨w, hw, rest⟩ := h.bits other d hd i hi
    exact ⟨w, List.mem_append_left _ hw, rest⟩

theorem contains_of_makeDependent {c : Catalogue} (h : c.Linked) {name : String}
    {mentions : List Mention} {operands : List Operand} {role : Role} {v : Variable}
    (ho : c.resolveAll mentions = .ok operands)
    (hv : Variable.makeDependent c.next name operands role = .ok v) : Contains c.made v := by
  obtain ⟨vs, hvs, rfl⟩ := makeDependent_eq_ok hv
  have hmade : ∀ w ∈ vs, w ∈ c.made := fun w hw =>
    mem_made_of_resolveAll ho (Variable.mem_dependenciesOf hvs hw)
  intro s hs
  obtain ⟨w, hw, he⟩ := Variable.mem_closureOf hs
  have hclosure : ∀ other, w.dependsOn other = true →
      other ∈ (Variable.closureOf vs).map Symbol.name :=
    fun other hd => Variable.name_mem_closureOf hw (Or.inr hd)
  rcases he with rfl | he
  · exact ⟨w, hmade w hw, rfl, fun other hd => Variable.dependsOn_iff.mpr (hclosure other hd)⟩
  · obtain ⟨x, hx, hxs, hsub⟩ := h.closed w (hmade w hw) s he
    exact ⟨x, hx, hxs, fun other hd => Variable.dependsOn_iff.mpr (hclosure other (hsub other hd))⟩

/-- The bits of a dial are placed one after another, with the serial numbers that it counts on. -/
theorem made_placeBits {c c' : Catalogue} {label : String} {d : Dial} {k n : Nat}
    (hk : c.next = d.base + k) (h : c.placeBits label d (List.range' k n) = .ok c') :
    c'.dials = c.dials ∧ c'.made = c.made ++ (List.range' k n).map d.bit ∧
      c'.next = d.base + (k + n) := by
  induction n generalizing c k with
  | zero =>
    cases h
    exact ⟨rfl, (List.append_nil _).symm, hk⟩
  | succ n ih =>
    obtain ⟨bit, hbit, h⟩ := bind_eq_ok.mp h
    obtain rfl := makeMutable_eq_ok hbit
    have hnext : (c.place (bitLabel label k) (d.bit k)).next = d.base + (k + 1) := by
      show c.next + 1 = _
      omega
    rw [hk] at h
    obtain ⟨hdials, hmade, hlast⟩ := ih hnext h
    refine ⟨hdials, ?_, by omega⟩
    rw [hmade, List.range'_succ, List.map_cons]
    show c.made ++ [d.bit k] ++ _ = _
    rw [List.append_assoc]
    rfl

/-- A dial is placed with all its bits, and the next serial number comes after these. -/
theorem made_placeDial {c c' : Catalogue} {label : String} {d : Dial} (hbase : d.base = c.next)
    (h : c.placeDial label d = .ok c') :
    c'.dials = c.dials.set label d ∧ c'.made = c.made ++ (List.range' 0 d.width).map d.bit ∧
      c'.next = d.base + d.width := by
  rw [placeDial, List.range_eq_range'] at h
  obtain ⟨hdials, hmade, hnext⟩ := made_placeBits (by simpa using hbase.symm) h
  exact ⟨hdials, hmade, by omega⟩

theorem Linked.placeDial {c c' : Catalogue} (h : c.Linked) {label : String} {d : Dial}
    (hbase : d.base = c.next) (hd : c.placeDial label d = .ok c') : c'.Linked := by
  obtain ⟨hdials, hmade, _⟩ := made_placeDial hbase hd
  refine ⟨?_, ?_⟩
  · intro v hv
    rw [hmade] at hv ⊢
    rcases List.mem_append.mp hv with hv | hv
    · exact (h.closed v hv).mono (List.subset_append_left _ _)
    · obtain ⟨i, _, rfl⟩ := List.mem_map.mp hv
      exact contains_of_closure_nil rfl
  · intro other e he i hi
    rw [hmade]
    rw [dial?, hdials, Table.get?_set] at he
    split at he
    · cases he
      refine ⟨d.bit i, List.mem_append_right _ (List.mem_map_of_mem ?_), rfl, rfl⟩
      exact List.mem_range'_1.mpr ⟨Nat.zero_le i, by omega⟩
    · obtain ⟨w, hw, rest⟩ := h.bits other e he i hi
      exact ⟨w, List.mem_append_left _ hw, rest⟩

theorem Linked.extend {c d : Catalogue} (h : c.Linked) {s : Symbol} {mentions : List Mention}
    (hd : c.extend s mentions = .ok d) : d.Linked := by
  obtain ⟨f, hf, rfl⟩ := extend_eq_ok hd
  refine ⟨?_, ?_⟩
  · intro w hw t ht
    obtain ⟨v, hv, rfl⟩ := List.mem_map.mp hw
    obtain ⟨x, hx, hxt, hsub⟩ := h.closed v hv t (hf.closure v ▸ ht)
    refine ⟨f x, List.mem_map_of_mem hx, (hf.symbol x).trans hxt, ?_⟩
    intro name hn
    rw [hf.dependsOn] at hn ⊢
    exact hsub name hn
  · intro label e he i hi
    obtain ⟨w, hw, hws, hwr⟩ := h.bits label e he i hi
    exact ⟨f w, List.mem_map_of_mem hw, (hf.symbol w).trans hws, (hf.role w).trans hwr⟩

/-- **Definitions make a linked catalogue.** -/
theorem linked_defineAll {entries : List Entry} {c : Catalogue}
    (h : empty.defineAll entries = .ok c) : c.Linked := by
  refine Kept.defineAll ⟨⟨linked_empty, ?_, ?_, ?_⟩, ?_⟩ h
  · intro c label name default reversible v hc hv
    obtain rfl := makeMutable_eq_ok hv
    exact hc.place label (contains_of_closure_nil rfl)
  · intro c label name mentions operands role v hc ho hv _
    exact hc.place label (contains_of_makeDependent hc ho hv)
  · intro c d label dial hc hbase hd
    exact hc.placeDial hbase hd
  · intro c d s mentions hc hd
    exact hc.extend hd

end Catalogue

end Chronicle
