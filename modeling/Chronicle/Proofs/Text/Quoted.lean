import Chronicle.Datum.Lexeme
import Mathlib.Algebra.Group.Nat.Defs
import Mathlib.Data.List.Basic

/-!
# Quoted names are read back

A quoted name stands for one name only: a reader that undoes the escapes gets back the name, and
knows where it ends.  So messages that differ in a name, or in a list of names, are different.
-/

namespace Chronicle.Text.Quoted

open Datum.Scan (hexDigit?)

/-- The reader behind the opening quote, with the characters that it has read last first. -/
inductive Scan
  | plain (read : List Char)
  | escape (read : List Char)
  /-- Of the code point so many digits are missing. -/
  | code (read : List Char) (missing point : Nat)
  | closed (read : List Char)

namespace Scan

/-- The character that a letter stands for behind a backslash; any other stands for itself. -/
def unescaped (c : Char) : Char :=
  if c = 't' then '\t' else if c = 'n' then '\n' else if c = 'r' then '\r' else c

def step (quote : Char) (scan : Scan) (c : Char) : Option Scan :=
  match scan with
  | plain read =>
    if c = quote then some (closed read)
    else if c = '\\' then some (escape read)
    else some (plain (c :: read))
  | escape read =>
    if c = 'x' then some (code read 2 0)
    else if c = 'u' then some (code read 4 0)
    else if c = 'U' then some (code read 8 0)
    else some (plain (unescaped c :: read))
  | code read missing point =>
    (hexDigit? c).map fun d =>
      let point := 16 * point + d
      if missing ≤ 1 then plain (.ofNat point :: read) else code read (missing - 1) point
  | closed _ => none

end Scan

def decode? (s : String) : Option String :=
  match s.toList with
  | [] => none
  | quote :: cs =>
    match cs.foldlM (Scan.step quote) (.plain []) with
    | some (.closed read) => some (String.ofList read.reverse)
    | _ => none

/-! ### Escapes -/

theorem hexDigit?_digitChar {d : Nat} (hd : d < 16) : hexDigit? (Nat.digitChar d) = some d := by
  revert d
  decide

theorem hex_succ (n k : Nat) : hex (n + 1) k = Nat.digitChar (k / 16 ^ n % 16) :: hex n k := by
  simp [hex, List.range_succ]

/-- A reader that takes in hexadecimal digits one by one has the number when none is missing. -/
theorem read_hex {α : Type} (read : Nat → Nat → List Char → α)
    (hdigit : ∀ missing point d cs, d < 16 →
      read (missing + 1) point (Nat.digitChar d :: cs) = read missing (16 * point + d) cs)
    (n k point : Nat) (cs : List Char) :
    read n point (hex n k ++ cs) = read 0 (16 ^ n * point + k % 16 ^ n) cs := by
  induction n generalizing point with
  | zero => simp [hex, Nat.mod_one]
  | succ n ih =>
    have hsplit : k % 16 ^ (n + 1) = k % 16 ^ n + 16 ^ n * (k / 16 ^ n % 16) := by
      rw [Nat.pow_succ 16 n, Nat.mod_mul]
    rw [hex_succ, List.cons_append, hdigit _ _ _ _ (Nat.mod_lt _ (by decide)), ih, hsplit,
      Nat.pow_succ 16 n, Nat.mul_add, Nat.mul_assoc, Nat.add_assoc, Nat.add_comm (_ * (k / _ % 16))]

theorem foldlM_hex (quote : Char) (read : List Char) (n k : Nat) :
    (hex (n + 1) k).foldlM (Scan.step quote) (.code read (n + 1) 0) =
      some (.plain (.ofNat (k % 16 ^ (n + 1)) :: read)) := by
  have h := read_hex (fun missing point cs => cs.foldlM (Scan.step quote)
    (if missing = 0 then .plain (.ofNat point :: read) else .code read missing point))
    (fun missing point d cs hd => by
      cases missing <;> simp [Scan.step, hexDigit?_digitChar hd]) (n + 1) k 0 []
  simpa using h

/-- Every code point has a form with room for it. -/
theorem foldlM_codePoint {quote : Char} (hquote : quote ≠ '\\') (read : List Char) (c : Char) :
    (codePoint c.toNat).foldlM (Scan.step quote) (.plain read) = some (.plain (c :: read)) := by
  have form : ∀ (m : Char) (n : Nat),
      Scan.step quote (.escape read) m = some (.code read (n + 1) 0) → c.toNat < 16 ^ (n + 1) →
      ('\\' :: m :: hex (n + 1) c.toNat).foldlM (Scan.step quote) (.plain read) =
        some (.plain (c :: read)) := by
    intro m n hm hroom
    have hback : Scan.step quote (.plain read) '\\' = some (.escape read) := by
      simp [Scan.step, hquote.symm]
    simp only [List.foldlM_cons, hback, hm, Option.bind_eq_bind, Option.bind_some, foldlM_hex,
      Nat.mod_eq_of_lt hroom, Char.ofNat_toNat]
  unfold codePoint
  split
  next h => exact form 'x' 1 rfl h
  next =>
    split
    next h => exact form 'u' 3 rfl h
    next => exact form 'U' 7 rfl c.val.toNat_lt

theorem foldlM_escape {quote : Char} (hquote : quote = '\'' ∨ quote = '"') (read : List Char)
    (c : Char) :
    (escape quote c).foldlM (Scan.step quote) (.plain read) = some (.plain (c :: read)) := by
  have hback : quote ≠ '\\' := by rcases hquote with rfl | rfl <;> decide
  unfold escape
  split_ifs with hescaped htab hfeed hreturn hshown
  · rcases (by simpa using hescaped : c = '\\' ∨ c = quote) with rfl | rfl
    · simp [Scan.step, hback.symm, Scan.unescaped]
    · rcases hquote with rfl | rfl <;> simp [Scan.step, Scan.unescaped]
  · subst htab
    simp [Scan.step, hback.symm, Scan.unescaped]
  · subst hfeed
    simp [Scan.step, hback.symm, Scan.unescaped]
  · subst hreturn
    simp [Scan.step, hback.symm, Scan.unescaped]
  · simp only [Bool.or_eq_true, decide_eq_true_eq, not_or] at hescaped
    simp [Scan.step, hescaped]
  · exact foldlM_codePoint hback read c

theorem foldlM_flatMap_escape {quote : Char} (hquote : quote = '\'' ∨ quote = '"')
    (cs read : List Char) :
    (cs.flatMap (escape quote)).foldlM (Scan.step quote) (.plain read) =
      some (.plain (cs.reverse ++ read)) := by
  induction cs generalizing read with
  | nil => rfl
  | cons c cs ih =>
    rw [List.flatMap_cons, List.foldlM_append, foldlM_escape hquote]
    simp [ih]

/-! ### Names -/

theorem quoteFor_cases (cs : List Char) : quoteFor cs = '\'' ∨ quoteFor cs = '"' := by
  unfold quoteFor
  split
  · exact .inr rfl
  · exact .inl rfl

theorem exists_toList_encode (s : String) :
    ∃ quote cs, (encode s).toList = quote :: cs ∧ (quote = '\'' ∨ quote = '"') ∧
      cs.foldlM (Scan.step quote) (.plain []) = some (.closed s.toList.reverse) := by
  have hquote := quoteFor_cases s.toList
  refine ⟨_, s.toList.flatMap (escape (quoteFor s.toList)) ++ [quoteFor s.toList],
    String.toList_ofList, hquote, ?_⟩
  rw [List.foldlM_append, foldlM_flatMap_escape hquote]
  simp [Scan.step]

theorem decode?_encode (s : String) : decode? (encode s) = some s := by
  obtain ⟨quote, cs, hencode, -, hclosed⟩ := exists_toList_encode s
  simp [decode?, hencode, hclosed]

theorem encode_injective : Function.Injective encode := by
  intro s t h
  have hread := congrArg decode? h
  rwa [decode?_encode, decode?_encode, Option.some.injEq] at hread

/-- Behind the closing quote nothing more is read. -/
theorem eq_nil_of_closed {quote : Char} {cs ds r r' : List Char}
    (hcs : cs.foldlM (Scan.step quote) (.plain []) = some (.closed r))
    (hds : (cs ++ ds).foldlM (Scan.step quote) (.plain []) = some (.closed r')) : ds = [] := by
  rw [List.foldlM_append, hcs] at hds
  cases ds with
  | nil => rfl
  | cons d ds => simp [Scan.step] at hds

theorem encode_append_cancel {s t : String} {cs ds : List Char}
    (h : (encode s).toList ++ cs = (encode t).toList ++ ds) : s = t ∧ cs = ds := by
  obtain ⟨q, as, hs, -, hsclosed⟩ := exists_toList_encode s
  obtain ⟨q', bs, ht, -, htclosed⟩ := exists_toList_encode t
  simp only [hs, ht, List.cons_append, List.cons.injEq] at h
  obtain ⟨rfl, h⟩ := h
  have hsame : as = bs := by
    rcases List.append_eq_append_iff.1 h with ⟨m, rfl, -⟩ | ⟨m, rfl, -⟩
    · rw [eq_nil_of_closed hsclosed htclosed, List.append_nil]
    · rw [eq_nil_of_closed htclosed hsclosed, List.append_nil]
  subst hsame
  exact ⟨encode_injective (String.toList_injective (by rw [hs, ht])), List.append_cancel_left h⟩

/-! ### Lists of names -/

/-- What stands behind the opening bracket of a list of names. -/
def items (names : List String) : List Char :=
  (", ".intercalate (names.map encode)).toList ++ [']']

theorem toList_encodeList (names : List String) :
    (encodeList names).toList = '[' :: items names := by
  simp [encodeList, items]

theorem items_singleton (s : String) : items [s] = (encode s).toList ++ [']'] := by
  simp [items]

theorem items_cons_cons (s t : String) (names : List String) :
    items (s :: t :: names) = (encode s).toList ++ ',' :: ' ' :: items (t :: names) := by
  simp [items, String.intercalate_cons_cons]

theorem items_cons_ne_nil (s : String) (names : List String) : items [] ≠ items (s :: names) := by
  obtain ⟨quote, cs, hs, hquote, -⟩ := exists_toList_encode s
  cases names <;> rcases hquote with rfl | rfl <;> simp [items, String.intercalate_cons_cons, hs]

theorem items_injective {names names' : List String} (h : items names = items names') :
    names = names' := by
  induction names generalizing names' with
  | nil =>
    cases names' with
    | nil => rfl
    | cons t names' => exact absurd h (items_cons_ne_nil t names')
  | cons s names ih =>
    cases names' with
    | nil => exact absurd h.symm (items_cons_ne_nil s names)
    | cons t names' =>
      cases names <;> cases names' <;> simp only [items_singleton, items_cons_cons] at h
      case nil.nil => rw [(encode_append_cancel h).1]
      case nil.cons => simpa using (encode_append_cancel h).2
      case cons.nil => simpa using (encode_append_cancel h).2
      case cons.cons =>
        obtain ⟨rfl, hrest⟩ := encode_append_cancel h
        rw [ih (by simpa using hrest)]

theorem encodeList_injective : Function.Injective encodeList := by
  intro names names' h
  have hitems := congrArg String.toList h
  rw [toList_encodeList, toList_encodeList, List.cons.injEq] at hitems
  exact items_injective hitems.2

/-! ### Visible characters -/

theorem isPrintable_digitChar {d : Nat} (hd : d < 16) : isPrintable (Nat.digitChar d) := by
  revert d
  decide

theorem isPrintable_of_mem_hex {n k : Nat} {c : Char} (hc : c ∈ hex n k) : isPrintable c := by
  obtain ⟨i, -, rfl⟩ := List.mem_map.1 hc
  exact isPrintable_digitChar (Nat.mod_lt _ (by decide))

theorem isPrintable_of_mem_codePoint {k : Nat} {c : Char} (hc : c ∈ codePoint k) :
    isPrintable c := by
  unfold codePoint at hc
  split_ifs at hc <;> simp only [List.mem_cons] at hc <;>
    rcases hc with rfl | rfl | hc <;> first | decide | exact isPrintable_of_mem_hex hc

theorem isPrintable_of_mem_pair {c d : Char} (hc : isPrintable c) (hd : d ∈ ['\\', c]) :
    isPrintable d := by
  rcases List.mem_pair.1 hd with rfl | rfl
  · decide
  · exact hc

theorem isPrintable_of_mem_escape {quote : Char} (hquote : isPrintable quote) {c d : Char}
    (hd : d ∈ escape quote c) : isPrintable d := by
  unfold escape at hd
  split_ifs at hd with hescaped htab hfeed hreturn hshown
  · refine isPrintable_of_mem_pair ?_ hd
    rcases (by simpa using hescaped : c = '\\' ∨ c = quote) with rfl | rfl
    · decide
    · exact hquote
  · exact isPrintable_of_mem_pair (by decide) hd
  · exact isPrintable_of_mem_pair (by decide) hd
  · exact isPrintable_of_mem_pair (by decide) hd
  · rwa [List.mem_singleton.1 hd]
  · exact isPrintable_of_mem_codePoint hd

/-- A quoted name has no character without a visible form. -/
theorem isPrintable_of_mem_encode (s : String) : ∀ c ∈ (encode s).toList, isPrintable c := by
  intro c hc
  have hquote : isPrintable (quoteFor s.toList) := by
    rcases quoteFor_cases s.toList with h | h <;> rw [h] <;> decide
  rw [encode, String.toList_ofList, List.cons_append, List.mem_cons, List.mem_append,
    List.mem_singleton, List.mem_flatMap] at hc
  rcases hc with rfl | ⟨d, -, hd⟩ | rfl
  · exact hquote
  · exact isPrintable_of_mem_escape hquote hd
  · exact hquote

end Chronicle.Text.Quoted
