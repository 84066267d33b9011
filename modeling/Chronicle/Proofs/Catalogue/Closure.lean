import Chronicle.Proofs.Outcome
import Mathlib.Data.List.Nodup

/-!
# Closures of a catalogue

A definition can mention only what is made before it, and its closure is put together from what it
mentions and the closures of that.  `Catalogue.Sound` is what survives of this in the catalogue:
serial numbers tell variables apart, and whatever a closure holds is a direct dependency or stands
in the closure of one.  `sound_defineAll` proves it of every catalogue that definitions make; late
dependencies only add to the direct ones.

What holds of a catalogue because no step of its making takes it away is a `Catalogue.Kept`
property, and `Kept.defineAll` gathers the steps.
-/

namespace Chronicle

namespace Variable

theorem mem_addSymbol {l : List Symbol} {s t : Symbol} (h : t ∈ addSymbol l s) :
    t ∈ l ∨ t = s := by
  unfold addSymbol at h
  split at h
  · exact Or.inl h
  · simpa using h

theorem mem_foldl_addSymbol {l m : List Symbol} {t : Symbol} (h : t ∈ l.foldl addSymbol m) :
    t ∈ m ∨ t ∈ l := by
  induction l generalizing m with
  | nil => exact Or.inl h
  | cons s rest ih =>
    rcases ih h with h | h
    · rcases mem_addSymbol h with h | rfl
      · exact Or.inl h
      · exact Or.inr List.mem_cons_self
    · exact Or.inr (List.mem_cons_of_mem s h)

theorem mem_closureOf {dependencies : List Variable} {s : Symbol}
    (h : s ∈ closureOf dependencies) :
    ∃ w ∈ dependencies, s = w.symbol ∨ s ∈ w.closure := by
  rcases mem_foldl_addSymbol h with h | h
  · cases h
  · rcases List.mem_append.mp h with h | h
    · obtain ⟨w, hw, rfl⟩ := List.mem_map.mp h
      exact ⟨w, hw, Or.inl rfl⟩
    · obtain ⟨w, hw, hs⟩ := List.mem_flatMap.mp h
      exact ⟨w, hw, Or.inr hs⟩

theorem mem_dependenciesOf {name : String} {operands : List Operand} {vs : List Variable}
    (h : dependenciesOf name operands = .ok vs) {v : Variable} (hv : v ∈ vs) :
    Operand.made v ∈ operands := by
  induction operands generalizing vs with
  | nil =>
    cases h
    cases hv
  | cons o rest ih =>
    cases o with
    | datum d => cases h
    | made w =>
      simp only [dependenciesOf] at h
      split at h
      · cases h
      · obtain ⟨ws, hws, h⟩ := bind_eq_ok.mp h
        cases h
        rcases List.mem_cons.mp hv with rfl | hv
        · exact List.mem_cons_self
        · exact List.mem_cons_of_mem _ (ih hws hv)

end Variable

namespace Catalogue

/-- The direct dependencies reach all of the closure, through variables of the catalogue. -/
def Reaches (c : Catalogue) (v : Variable) : Prop :=
  ∀ s ∈ v.closure, s ∈ v.dependencies ∨ ∃ w ∈ c.made, w.symbol ∈ v.dependencies ∧ s ∈ w.closure

/-- Serial numbers tell variables apart, and direct dependencies reach all of a closure, which is
empty for a mutable. -/
structure Sound (c : Catalogue) : Prop where
  fresh : ∀ v ∈ c.made, v.symbol.serial < c.next
  distinct : (c.made.map Variable.symbol).Nodup
  closure : ∀ v ∈ c.made, c.Reaches v
  mutable_closure : ∀ v ∈ c.made, v.isMutable = true → v.closure = []

theorem sound_empty : empty.Sound where
  fresh := by intro v hv; cases hv
  distinct := List.nodup_nil
  closure := by intro v hv; cases hv
  mutable_closure := by intro v hv; cases hv

theorem Sound.place {c : Catalogue} (h : c.Sound) (label : String) {v : Variable}
    (hs : v.symbol.serial = c.next) (hv : c.Reaches v)
    (hm : v.isMutable = true → v.closure = []) : (c.place label v).Sound where
  fresh := by
    intro w hw
    rcases List.mem_append.mp hw with hw | hw
    · exact Nat.lt_succ_of_lt (h.fresh w hw)
    · obtain rfl := List.mem_singleton.mp hw
      exact hs ▸ Nat.lt_succ_self _
  distinct := by
    show ((c.made ++ [v]).map Variable.symbol).Nodup
    rw [List.map_append, List.map_singleton, List.nodup_append]
    refine ⟨h.distinct, List.nodup_singleton _, ?_⟩
    intro s hsm t ht
    obtain ⟨w, hw, rfl⟩ := List.mem_map.mp hsm
    obtain rfl := List.mem_singleton.mp ht
    intro he
    have hlt := h.fresh w hw
    rw [he, hs] at hlt
    exact Nat.lt_irrefl _ hlt
  closure := by
    intro w hw s hsc
    have hold : ∀ u : Variable, c.Reaches u → s ∈ u.closure → s ∈ u.dependencies ∨
        ∃ x ∈ c.made ++ [v], x.symbol ∈ u.dependencies ∧ s ∈ x.closure := by
      intro u hu hsu
      rcases hu s hsu with hd | ⟨x, hx, hxd, hxs⟩
      · exact Or.inl hd
      · exact Or.inr ⟨x, List.mem_append_left _ hx, hxd, hxs⟩
    rcases List.mem_append.mp hw with hw | hw
    · exact hold w (h.closure w hw) hsc
    · obtain rfl := List.mem_singleton.mp hw
      exact hold w hv hsc
  mutable_closure := by
    intro w hw hmut
    rcases List.mem_append.mp hw with hw | hw
    · exact h.mutable_closure w hw hmut
    · obtain rfl := List.mem_singleton.mp hw
      exact hm hmut

/-! ### What a mention stands for is made -/

theorem mem_made_of_resolve {c : Catalogue} {m : Mention} {operands : List Operand}
    (h : c.resolve m = .ok operands) {v : Variable} (hv : .made v ∈ operands) : v ∈ c.made := by
  cases m with
  | datum d =>
    cases h
    simp at hv
  | label label =>
    simp only [resolve] at h
    cases hd : c.dial? label with
    | some d =>
      rw [hd] at h
      cases h
      obtain ⟨w, hw, he⟩ := List.mem_map.mp hv
      cases he
      exact List.mem_of_mem_filter hw
    | none =>
      rw [hd] at h
      cases hl : c.variableOf? label with
      | none =>
        rw [hl] at h
        cases h
      | some w =>
        rw [hl] at h
        cases h
        obtain ⟨s, _, hf⟩ := Option.bind_eq_some_iff.mp hl
        have hw := List.mem_of_find?_eq_some hf
        rw [List.mem_singleton] at hv
        cases hv
        exact hw

theorem mem_made_of_resolveAll {c : Catalogue} {ms : List Mention} {operands : List Operand}
    (h : c.resolveAll ms = .ok operands) {v : Variable} (hv : .made v ∈ operands) :
    v ∈ c.made := by
  induction ms generalizing operands with
  | nil =>
    cases h
    cases hv
  | cons m rest ih =>
    obtain ⟨l, hl, h⟩ := bind_eq_ok.mp h
    obtain ⟨k, hk, h⟩ := bind_eq_ok.mp h
    cases h
    rcases List.mem_append.mp hv with hv | hv
    · exact mem_made_of_resolve hl hv
    · exact ih hk hv


theorem makeMutable_eq_ok {serial : Nat} {name : String} {default reversible : Bool} {v : Variable}
    (h : Variable.makeMutable serial name default reversible = .ok v) :
    v = ⟨⟨name, serial⟩, .mutable default reversible, [], []⟩ := by
  unfold Variable.makeMutable at h
  split at h
  · cases h
  · cases h
    rfl

theorem makeDependent_eq_ok {serial : Nat} {name : String} {operands : List Operand} {role : Role}
    {v : Variable} (h : Variable.makeDependent serial name operands role = .ok v) :
    ∃ vs, Variable.dependenciesOf name operands = .ok vs ∧
      v = ⟨⟨name, serial⟩, role, vs.map Variable.symbol, Variable.closureOf vs⟩ := by
  simp only [Variable.makeDependent] at h
  split at h
  · cases h
  · obtain ⟨vs, hvs, h⟩ := bind_eq_ok.mp h
    split at h
    · cases h
    · cases h
      exact ⟨vs, hvs, rfl⟩

theorem isMutable_of_makeDependent {serial : Nat} {name : String} {operands : List Operand}
    {role : Role} {v : Variable} (h : Variable.makeDependent serial name operands role = .ok v)
    (hr : (⟨⟨name, serial⟩, role, [], []⟩ : Variable).isMutable = false) : v.isMutable = false := by
  obtain ⟨vs, _, rfl⟩ := makeDependent_eq_ok h
  exact hr

/-! ### What definitions keep -/

theorem base_of_make {name : String} {start max : Int} {base : Nat} {d : Dial}
    (h : Dial.make name start max base = .ok d) : d.base = base := by
  unfold Dial.make at h
  split at h
  · cases h
  · split at h
    · cases h
      rfl
    · cases h

/-- A property of catalogues that the empty one has, and that no definition takes away. -/
structure Built (P : Catalogue → Prop) : Prop where
  empty : P empty
  mutable : ∀ (c : Catalogue) (label name : String) (default reversible : Bool) (v : Variable),
    P c → Variable.makeMutable c.next name default reversible = .ok v → P (c.place label v)
  dependent : ∀ (c : Catalogue) (label name : String) (mentions : List Mention)
    (operands : List Operand) (role : Role) (v : Variable), P c →
    c.resolveAll mentions = .ok operands →
    Variable.makeDependent c.next name operands role = .ok v → v.isMutable = false →
    P (c.place label v)
  dial : ∀ (c c' : Catalogue) (label : String) (d : Dial), P c → d.base = c.next →
    c.placeDial label d = .ok c' → P c'

/-- Nor does a late dependency take it away. -/
structure Kept (P : Catalogue → Prop) : Prop extends Built P where
  extend : ∀ (c c' : Catalogue) (s : Symbol) (mentions : List Mention), P c →
    c.extend s mentions = .ok c' → P c'

section

variable {P : Catalogue → Prop} (hP : Built P) {c d : Catalogue} (h : P c)

include hP h

theorem Built.define {label : String} {definition : Definition}
    (hd : c.define label definition = .ok d) : P d := by
  cases definition with
  | mutable name default reversible =>
    obtain ⟨v, hv, hd⟩ := bind_eq_ok.mp hd
    cases hd
    exact hP.mutable c label name default reversible v h hv
  | derived name mentions rule =>
    obtain ⟨operands, ho, hd⟩ := bind_eq_ok.mp hd
    obtain ⟨v, hv, hd⟩ := bind_eq_ok.mp hd
    cases hd
    exact hP.dependent c label name mentions operands _ v h ho hv
      (isMutable_of_makeDependent hv rfl)
  | triggered name mentions rule persistent =>
    obtain ⟨operands, ho, hd⟩ := bind_eq_ok.mp hd
    obtain ⟨v, hv, hd⟩ := bind_eq_ok.mp hd
    cases hd
    exact hP.dependent c label name mentions operands _ v h ho hv
      (isMutable_of_makeDependent hv rfl)
  | dial name start max =>
    obtain ⟨dial, hdial, hd⟩ := bind_eq_ok.mp hd
    exact hP.dial c d label dial h (base_of_make hdial) hd

theorem Built.makeAll {entries : List Entry} {late : List (Symbol × List Mention)}
    (hd : c.makeAll entries = .ok (d, late)) : P d := by
  induction entries generalizing c late with
  | nil =>
    cases hd
    exact h
  | cons e rest ih =>
    obtain ⟨c', hc', hd⟩ := bind_eq_ok.mp hd
    obtain ⟨⟨made, late'⟩, hrest, hd⟩ := bind_eq_ok.mp hd
    cases hd
    exact ih (hP.define h hc') hrest

end

theorem Kept.extendAll {P : Catalogue → Prop} (hP : Kept P) {c d : Catalogue} (h : P c)
    {late : List (Symbol × List Mention)} (hd : c.extendAll late = .ok d) : P d := by
  induction late generalizing c with
  | nil =>
    cases hd
    exact h
  | cons e rest ih =>
    obtain ⟨c', hc', hd⟩ := bind_eq_ok.mp hd
    exact ih (hP.extend c c' _ _ h hc') hd

/-- **What definitions keep** holds of every catalogue that they make. -/
theorem Kept.defineAll {P : Catalogue → Prop} (hP : Kept P) {entries : List Entry} {c : Catalogue}
    (h : Catalogue.empty.defineAll entries = .ok c) : P c := by
  obtain ⟨⟨made, late⟩, hmade, h⟩ := bind_eq_ok.mp h
  exact hP.extendAll (hP.makeAll hP.empty hmade) h

/-- The bits of a dial take away nothing that a mutable does not. -/
theorem placeBits_induction {P : Catalogue → Prop}
    (hmutable : ∀ (c : Catalogue) (label name : String) (default reversible : Bool) (v : Variable),
      P c → Variable.makeMutable c.next name default reversible = .ok v → P (c.place label v))
    {c d : Catalogue} (h : P c) {label : String} {dial : Dial} {is : List Nat}
    (hd : c.placeBits label dial is = .ok d) : P d := by
  induction is generalizing c with
  | nil =>
    cases hd
    exact h
  | cons i rest ih =>
    obtain ⟨bit, hbit, hd⟩ := bind_eq_ok.mp hd
    exact ih (hmutable c _ _ _ _ bit h hbit) hd

/-! ### Every step keeps a catalogue sound -/

theorem Sound.place_mutable {c : Catalogue} (h : c.Sound) (label : String) {name : String}
    {default reversible : Bool} {v : Variable}
    (hv : Variable.makeMutable c.next name default reversible = .ok v) :
    (c.place label v).Sound := by
  obtain rfl := makeMutable_eq_ok hv
  exact h.place label rfl (by intro s hs; cases hs) (fun _ => rfl)

theorem Sound.place_dependent {c : Catalogue} (h : c.Sound) (label : String) {name : String}
    {mentions : List Mention} {operands : List Operand} {role : Role} {v : Variable}
    (ho : c.resolveAll mentions = .ok operands)
    (hv : Variable.makeDependent c.next name operands role = .ok v) (hm : v.isMutable = false) :
    (c.place label v).Sound := by
  obtain ⟨vs, hvs, rfl⟩ := makeDependent_eq_ok hv
  refine h.place label rfl ?_ (fun ht => absurd ht (by simp [hm]))
  intro s hs
  obtain ⟨w, hw, he⟩ := Variable.mem_closureOf hs
  have hdep : w.symbol ∈ vs.map Variable.symbol := List.mem_map.mpr ⟨w, hw, rfl⟩
  rcases he with rfl | he
  · exact Or.inl hdep
  · have hmade := mem_made_of_resolveAll ho (Variable.mem_dependenciesOf hvs hw)
    exact Or.inr ⟨w, hmade, hdep, he⟩

/-- A change of variables that at most adds to their direct dependencies. -/
structure Lengthens (f : Variable → Variable) : Prop where
  symbol : ∀ v, (f v).symbol = v.symbol
  role : ∀ v, (f v).role = v.role
  closure : ∀ v, (f v).closure = v.closure
  dependencies : ∀ v, v.dependencies ⊆ (f v).dependencies

namespace Lengthens

variable {f : Variable → Variable} (hf : Lengthens f)

include hf

theorem isMutable (v : Variable) : (f v).isMutable = v.isMutable := by
  rw [Variable.isMutable, Variable.kind, hf.role]
  rfl

theorem dependsOn (v : Variable) (name : String) : (f v).dependsOn name = v.dependsOn name := by
  rw [Variable.dependsOn, hf.closure]
  rfl

end Lengthens

theorem extend_eq_ok {c d : Catalogue} {s : Symbol} {mentions : List Mention}
    (h : c.extend s mentions = .ok d) : ∃ f, Lengthens f ∧ d = { c with made := c.made.map f } := by
  obtain ⟨operands, _, h⟩ := bind_eq_ok.mp h
  cases h
  refine ⟨_, ⟨?_, ?_, ?_, ?_⟩, rfl⟩
  · intro v
    split <;> rfl
  · intro v
    split <;> rfl
  · intro v
    split <;> rfl
  · intro v
    split
    · exact List.subset_append_left _ _
    · exact List.Subset.refl _

theorem Sound.extend {c d : Catalogue} (h : c.Sound) {s : Symbol} {mentions : List Mention}
    (hd : c.extend s mentions = .ok d) : d.Sound := by
  obtain ⟨f, hf, rfl⟩ := extend_eq_ok hd
  refine ⟨?_, ?_, ?_, ?_⟩
  · intro w hw
    obtain ⟨v, hv, rfl⟩ := List.mem_map.mp hw
    rw [hf.symbol]
    exact h.fresh v hv
  · have hmap : (c.made.map f).map Variable.symbol = c.made.map Variable.symbol := by
      rw [List.map_map]
      exact List.map_congr_left fun v _ => hf.symbol v
    exact hmap ▸ h.distinct
  · intro w hw t ht
    obtain ⟨v, hv, rfl⟩ := List.mem_map.mp hw
    rcases h.closure v hv t (hf.closure v ▸ ht) with hd | ⟨x, hx, hxd, hxs⟩
    · exact Or.inl (hf.dependencies v hd)
    · exact Or.inr ⟨f x, List.mem_map_of_mem hx, hf.dependencies v (hf.symbol x ▸ hxd),
        hf.closure x ▸ hxs⟩
  · intro w hw hm
    obtain ⟨v, hv, rfl⟩ := List.mem_map.mp hw
    exact (hf.closure v).trans (h.mutable_closure v hv (hf.isMutable v ▸ hm))

/-- **Definitions make a sound catalogue**, late dependencies included. -/
theorem sound_defineAll {entries : List Entry} {c : Catalogue}
    (h : empty.defineAll entries = .ok c) : c.Sound := by
  refine Kept.defineAll ⟨⟨sound_empty, ?_, ?_, ?_⟩, ?_⟩ h
  · intro c label name default reversible v hc hv
    exact hc.place_mutable label hv
  · intro c label name mentions operands role v hc ho hv hm
    exact hc.place_dependent label ho hv hm
  · intro c d label dial hc _ hd
    have hplaced : ({ c with dials := c.dials.set label dial } : Catalogue).Sound :=
      ⟨hc.fresh, hc.distinct, hc.closure, hc.mutable_closure⟩
    exact placeBits_induction (fun _ label _ _ _ _ hc hv => hc.place_mutable label hv) hplaced hd
  · intro c d s mentions hc hd
    exact hc.extend hd

end Catalogue

end Chronicle
