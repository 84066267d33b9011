/-!
# Tables keyed by name

A table lists values under distinct names, in the order in which the names first came.  Writing to
a name that is there keeps its place; a new name goes to the end.  `get?_set` and `get?_filter`
say what the two operations do to a look-up, and `mem_entries_iff` that a table is its look-ups.
-/

namespace Chronicle

/-- Values under distinct names, in order of first arrival. -/
structure Table (α : Type) where
  entries : List (String × α)
  nodup : (entries.map Prod.fst).Nodup
  deriving DecidableEq

namespace Table

variable {α β : Type}

def lookup (name : String) : List (String × α) → Option α
  | [] => none
  | (n, a) :: rest => if n = name then some a else lookup name rest

/-- Writing to a bare list of entries: in place, or at the end. -/
def put (name : String) (a : α) : List (String × α) → List (String × α)
  | [] => [(name, a)]
  | (n, b) :: rest => if n = name then (n, a) :: rest else (n, b) :: put name a rest

theorem names_put (name : String) (a : α) (l : List (String × α)) :
    (put name a l).map Prod.fst =
      if name ∈ l.map Prod.fst then l.map Prod.fst else l.map Prod.fst ++ [name] := by
  induction l with
  | nil => rfl
  | cons e rest ih =>
    obtain ⟨n, b⟩ := e
    by_cases h : n = name
    · subst h; simp [put]
    · have h' : ¬ name = n := fun e => h e.symm
      simp only [put, if_neg h, List.map_cons, ih, List.mem_cons, h', false_or]
      split <;> simp

theorem nodup_put {l : List (String × α)} (h : (l.map Prod.fst).Nodup) (name : String) (a : α) :
    ((put name a l).map Prod.fst).Nodup := by
  rw [names_put]
  split
  · exact h
  next hn =>
    refine List.nodup_append.2 ⟨h, by simp, ?_⟩
    intro x hx y hy e
    rw [List.mem_singleton.1 hy] at e
    exact hn (e ▸ hx)

theorem lookup_put (name other : String) (a : α) (l : List (String × α)) :
    lookup other (put name a l) = if name = other then some a else lookup other l := by
  induction l with
  | nil => simp [put, lookup]
  | cons e rest ih =>
    obtain ⟨n, b⟩ := e
    by_cases h : n = name
    · subst h; by_cases ho : n = other <;> simp [put, lookup, ho]
    · by_cases ho : n = other
      · subst ho
        have h' : ¬ name = n := fun e => h e.symm
        simp [put, lookup, h, h']
      · simp [put, lookup, h, ho, ih]

def empty : Table α := ⟨[], List.nodup_nil⟩

instance : Inhabited (Table α) := ⟨empty⟩

def get? (t : Table α) (name : String) : Option α := lookup name t.entries

def names (t : Table α) : List String := t.entries.map Prod.fst

def size (t : Table α) : Nat := t.entries.length

def isEmpty (t : Table α) : Bool := t.entries.isEmpty

def contains (t : Table α) (name : String) : Bool := (t.get? name).isSome

def set (t : Table α) (name : String) (a : α) : Table α :=
  ⟨put name a t.entries, nodup_put t.nodup name a⟩

def filter (t : Table α) (keep : String → Bool) : Table α :=
  ⟨t.entries.filter (fun e => keep e.1),
    (List.filter_sublist.map Prod.fst).nodup t.nodup⟩

def update (t : Table α) (u : List (String × α)) : Table α :=
  u.foldl (fun s e => s.set e.1 e.2) t

/-- The table that writing the pairs in order gives: of two pairs with one name the first fixes
the place and the last the value. -/
def ofList (l : List (String × α)) : Table α := empty.update l

@[simp] theorem get?_empty (name : String) : (empty : Table α).get? name = none := rfl

theorem get?_set (t : Table α) (name other : String) (a : α) :
    (t.set name a).get? other = if name = other then some a else t.get? other :=
  lookup_put name other a t.entries

@[simp] theorem get?_set_self (t : Table α) (name : String) (a : α) :
    (t.set name a).get? name = some a := by
  simp [get?_set]

theorem get?_set_of_ne (t : Table α) {name other : String} (h : name ≠ other) (a : α) :
    (t.set name a).get? other = t.get? other := by
  simp [get?_set, h]

theorem lookup_eq_none_iff {name : String} {l : List (String × α)} :
    lookup name l = none ↔ name ∉ l.map Prod.fst := by
  induction l with
  | nil => simp [lookup]
  | cons e rest ih =>
    obtain ⟨n, b⟩ := e
    by_cases h : n = name
    · simp [lookup, h]
    · have h' : ¬ name = n := fun e => h e.symm
      simp only [lookup, if_neg h, ih, List.map_cons, List.mem_cons, h', false_or]

theorem lookup_append (name : String) (l m : List (String × α)) :
    lookup name (l ++ m) = (lookup name l).or (lookup name m) := by
  induction l with
  | nil => rfl
  | cons e rest ih =>
    obtain ⟨n, b⟩ := e
    by_cases h : n = name <;> simp [lookup, h, ih]

theorem mem_iff_lookup {name : String} {a : α} {l : List (String × α)}
    (h : (l.map Prod.fst).Nodup) : (name, a) ∈ l ↔ lookup name l = some a := by
  induction l with
  | nil => simp [lookup]
  | cons e rest ih =>
    obtain ⟨n, b⟩ := e
    obtain ⟨hn, hr⟩ := List.nodup_cons.1 h
    by_cases hc : n = name
    · subst hc
      have : (n, a) ∉ rest := fun hm => hn (List.mem_map.2 ⟨_, hm, rfl⟩)
      simp [lookup, this, eq_comm]
    · have h' : ¬ name = n := fun e => hc e.symm
      simp [lookup, hc, h', ih hr]

/-- A table is its look-ups. -/
theorem mem_entries_iff {t : Table α} {name : String} {a : α} :
    (name, a) ∈ t.entries ↔ t.get? name = some a :=
  mem_iff_lookup t.nodup

theorem mem_names_iff {t : Table α} {name : String} :
    name ∈ t.names ↔ (t.get? name).isSome = true := by
  rw [Option.isSome_iff_ne_none, ne_eq, get?, lookup_eq_none_iff]
  exact Decidable.not_not.symm

theorem get?_filter (t : Table α) (keep : String → Bool) (name : String) :
    (t.filter keep).get? name = if keep name then t.get? name else none := by
  suffices h : ∀ l : List (String × α),
      lookup name (l.filter fun e => keep e.1) = if keep name then lookup name l else none from
    h t.entries
  intro l
  induction l with
  | nil => simp [lookup]
  | cons e rest ih =>
    obtain ⟨n, b⟩ := e
    by_cases hk : keep n
    · by_cases hn : n = name
      · subst hn; simp [hk, lookup]
      · simp [hk, lookup, hn, ih]
    · by_cases hn : n = name
      · subst hn; simp [hk, ih]
      · simp [hk, lookup, hn, ih]

/-- Of several pairs with one name the last decides. -/
theorem get?_update (t : Table α) (l : List (String × α)) (name : String) :
    (t.update l).get? name = (lookup name l.reverse).or (t.get? name) := by
  induction l generalizing t with
  | nil => simp [update, lookup]
  | cons e rest ih =>
    obtain ⟨n, a⟩ := e
    have step : t.update ((n, a) :: rest) = (t.set n a).update rest := rfl
    rw [step, ih, get?_set, List.reverse_cons, lookup_append]
    by_cases h : n = name <;> simp [lookup, h]

theorem get?_update_entries (t u : Table α) (name : String) :
    (t.update u.entries).get? name = (u.get? name).or (t.get? name) := by
  have h : lookup name u.entries.reverse = u.get? name := by
    refine Option.ext fun a => ?_
    rw [← mem_iff_lookup, List.mem_reverse, mem_entries_iff]
    rw [List.map_reverse]
    exact List.pairwise_reverse.2 (u.nodup.imp Ne.symm)
  rw [get?_update, h]

/-- Two tables hold the same entries, in any order. -/
def same [DecidableEq α] (t u : Table α) : Bool :=
  t.size == u.size && t.entries.all fun e => u.get? e.1 == some e.2

end Table

end Chronicle
