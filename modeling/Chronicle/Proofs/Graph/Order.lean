import Chronicle.Proofs.Outcome
import Mathlib.Data.List.Perm.Basic

/-!
# The evaluation order

The order of evaluation is made in rounds, each of which places whatever needs placed names alone.
`layers_perm` says that no variable is lost or repeated on the way, and `layers_follows` that each
comes after the names of its direct dependencies.

`Follows needs placed l` is the property of a list that both facts serve: every variable of `l`
needs only names that are placed before it.  It is stated for any notion of need, because the
direct dependencies of a graph are what the rounds look at, and the closures what a rule reads.
Either way it carries inductions along the order (`Follows.induction`).
-/

namespace Chronicle.Graph

/-- Every variable needs only names that are placed, or that come before it in the list. -/
def Follows (needs : Variable → String → Prop) : (String → Prop) → List Variable → Prop
  | _, [] => True
  | placed, v :: rest =>
    (∀ name, needs v name → placed name) ∧
      Follows needs (fun name => placed name ∨ name = v.name) rest

def Needs (v : Variable) (name : String) : Prop := ∃ s ∈ v.dependencies, s.name = name

section

variable {needs : Variable → String → Prop} {placed placed' : String → Prop}

theorem Follows.mono {l : List Variable} (h : Follows needs placed l)
    (hp : ∀ name, placed name → placed' name) : Follows needs placed' l := by
  induction l generalizing placed placed' with
  | nil => trivial
  | cons v rest ih =>
    refine ⟨fun name hn => hp name (h.1 name hn), ih h.2 ?_⟩
    rintro name (hn | rfl)
    · exact Or.inl (hp name hn)
    · exact Or.inr rfl

theorem follows_of_forall {l : List Variable}
    (h : ∀ v ∈ l, ∀ name, needs v name → placed name) : Follows needs placed l := by
  induction l generalizing placed with
  | nil => trivial
  | cons v rest ih =>
    refine ⟨h v List.mem_cons_self, ih ?_⟩
    intro w hw name hn
    exact Or.inl (h w (List.mem_cons_of_mem v hw) name hn)

theorem follows_append {l m : List Variable} (hl : Follows needs placed l)
    (hm : Follows needs (fun name => placed name ∨ name ∈ l.map Variable.name) m) :
    Follows needs placed (l ++ m) := by
  induction l generalizing placed with
  | nil => exact hm.mono (by simp)
  | cons v rest ih =>
    refine ⟨hl.1, ih hl.2 (hm.mono ?_)⟩
    rintro name (hn | hn)
    · exact Or.inl (Or.inl hn)
    · rcases List.mem_cons.mp hn with rfl | hn
      · exact Or.inl (Or.inr rfl)
      · exact Or.inr hn

theorem Follows.filter {l : List Variable} (h : Follows needs placed l) {keep : Variable → Bool}
    (hk : ∀ v ∈ l, keep v = false → placed v.name) : Follows needs placed (l.filter keep) := by
  induction l generalizing placed with
  | nil => trivial
  | cons v rest ih =>
    have hrest := ih h.2 fun w hw hkeep => Or.inl (hk w (List.mem_cons_of_mem v hw) hkeep)
    rw [List.filter_cons]
    split
    · exact ⟨h.1, hrest⟩
    next hv =>
      refine hrest.mono ?_
      rintro name (hn | rfl)
      · exact hn
      · exact hk v List.mem_cons_self (by simpa using hv)

/-- **Induction along an order**: what holds of a variable as soon as it holds of all those before
it that it needs, holds of every variable in the list. -/
theorem Follows.induction {P : Variable → Prop} {l : List Variable} (h : Follows needs placed l)
    (hstep : ∀ v ∈ l, (∀ name, needs v name → placed name ∨ ∃ w ∈ l, w.name = name ∧ P w) → P v) :
    ∀ v ∈ l, P v := by
  induction l generalizing placed with
  | nil =>
    intro v hv
    cases hv
  | cons v rest ih =>
    have hfirst : P v := hstep v List.mem_cons_self fun name hn => Or.inl (h.1 name hn)
    have hrest : ∀ w ∈ rest, P w := by
      refine ih h.2 ?_
      intro w hw hneeds
      refine hstep w (List.mem_cons_of_mem v hw) ?_
      intro name hn
      rcases hneeds name hn with (hp | rfl) | ⟨x, hx, he, hPx⟩
      · exact Or.inl hp
      · exact Or.inr ⟨v, List.mem_cons_self, rfl, hfirst⟩
      · exact Or.inr ⟨x, List.mem_cons_of_mem v hx, he, hPx⟩
    intro w hw
    rcases List.mem_cons.mp hw with rfl | hw
    · exact hfirst
    · exact hrest w hw

end

/-! ### Rounds -/

theorem isReady_iff {placed : List String} {v : Variable} :
    isReady placed v = true ↔ ∀ name, Needs v name → name ∈ placed := by
  simp only [isReady, List.all_eq_true, List.contains_iff_mem, Needs]
  refine ⟨?_, ?_⟩
  · rintro h name ⟨s, hs, rfl⟩
    exact h s hs
  · intro h s hs
    exact h s.name ⟨s, hs, rfl⟩

theorem layers_succ {rounds : Nat} {placed : List String} {pending order : List Variable}
    (h : layers (rounds + 1) placed pending = .ok order) :
    (pending = [] ∧ order = []) ∨
      ∃ rest, pending.filter (isReady placed) ≠ [] ∧
        layers rounds (placed ++ (pending.filter (isReady placed)).map Variable.name)
          (pending.filter fun v => !isReady placed v) = .ok rest ∧
        order = pending.filter (isReady placed) ++ rest := by
  simp only [layers] at h
  split at h
  next he =>
    cases h
    exact Or.inl ⟨List.isEmpty_iff.mp he, rfl⟩
  next =>
    split at h
    · cases h
    next hr =>
      obtain ⟨rest, hrest, h⟩ := bind_eq_ok.mp h
      cases h
      exact Or.inr ⟨rest, by simpa using hr, hrest, rfl⟩

/-- A round leaves fewer variables pending, so as many rounds as there are variables suffice. -/
theorem length_unready_lt {placed : List String} {pending : List Variable}
    (h : pending.filter (isReady placed) ≠ []) :
    (pending.filter fun v => !isReady placed v).length < pending.length := by
  have hsum := List.length_eq_length_filter_add (l := pending) (isReady placed)
  have hpos := List.length_pos_iff.mpr h
  omega

theorem layers_perm {rounds : Nat} {placed : List String} {pending order : List Variable}
    (hr : pending.length ≤ rounds) (h : layers rounds placed pending = .ok order) :
    order.Perm pending := by
  induction rounds generalizing placed pending order with
  | zero =>
    have hp : pending = [] := List.length_eq_zero_iff.mp (by omega)
    subst hp
    cases h
    exact List.Perm.refl _
  | succ rounds ih =>
    rcases layers_succ h with ⟨rfl, rfl⟩ | ⟨rest, hready, hrest, rfl⟩
    · exact List.Perm.refl _
    · have hlt := length_unready_lt hready
      have hperm := ih (by omega) hrest
      exact (hperm.append_left _).trans (List.filter_append_perm (isReady placed) pending)

theorem layers_follows {rounds : Nat} {placed : List String} {pending order : List Variable}
    (h : layers rounds placed pending = .ok order) :
    Follows Needs (· ∈ placed) order := by
  induction rounds generalizing placed pending order with
  | zero =>
    cases h
    trivial
  | succ rounds ih =>
    rcases layers_succ h with ⟨rfl, rfl⟩ | ⟨rest, _, hrest, rfl⟩
    · trivial
    · refine follows_append (follows_of_forall ?_) ((ih hrest).mono ?_)
      · intro v hv
        exact isReady_iff.mp (List.mem_filter.mp hv).2
      · intro name hn
        exact List.mem_append.mp hn

end Chronicle.Graph
